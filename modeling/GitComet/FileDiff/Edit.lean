import GitComet.Basis.Slice

namespace GitComet.FileDiff
open Slice CommonPrefix List

inductive EditKind where
  | equal
  | insert
  | delete
  deriving DecidableEq

structure Edit (α : Type) where
  kind : EditKind
  old : Option α
  new : Option α
  deriving DecidableEq

variable {α : Type}

def Edit.ofEqual (old new : α) : Edit α := ⟨.equal, some old, some new⟩
def Edit.ofDelete (old : α) : Edit α := ⟨.delete, some old, none⟩
def Edit.ofInsert (new : α) : Edit α := ⟨.insert, none, some new⟩

def oldProjection (edits : List (Edit α)) : List (Option α) :=
  (edits.filter (fun e => e.kind ≠ .insert)).map Edit.old

def newProjection (edits : List (Edit α)) : List (Option α) :=
  (edits.filter (fun e => e.kind ≠ .delete)).map Edit.new

def changes (edits : List (Edit α)) : ℕ := edits.countP fun e => decide (e.kind ≠ .equal)

@[simp] theorem changes_nil : changes ([] : List (Edit α)) = 0 := rfl

@[simp] theorem changes_equal (old new : α) (edits : List (Edit α)) :
    changes (.ofEqual old new :: edits) = changes edits := by simp [changes, Edit.ofEqual]

@[simp] theorem changes_delete (old : α) (edits : List (Edit α)) :
    changes (.ofDelete old :: edits) = changes edits + 1 := by simp [changes, Edit.ofDelete]

@[simp] theorem changes_insert (new : α) (edits : List (Edit α)) :
    changes (.ofInsert new :: edits) = changes edits + 1 := by simp [changes, Edit.ofInsert]

theorem changes_equals (xs : List α) : changes (xs.map fun s => Edit.ofEqual s s) = 0 := by
  induction xs with
  | nil => rfl
  | cons x xs ih => rw [map_cons, changes_equal, ih]

structure Transforms (old new : List α) (edits : List (Edit α)) : Prop where
  oldLines : oldProjection edits = old.map some
  newLines : newProjection edits = new.map some
  equalPairs : ∀ e ∈ edits, e.kind = .equal → e.old = e.new

inductive Script : List α → List α → List (Edit α) → Prop
  | nil : Script [] [] []
  | equal {xs ys es} (a : α) : Script xs ys es → Script (a :: xs) (a :: ys) (.ofEqual a a :: es)
  | delete {xs ys es} (a : α) : Script xs ys es → Script (a :: xs) ys (.ofDelete a :: es)
  | insert {xs ys es} (a : α) : Script xs ys es → Script xs (a :: ys) (.ofInsert a :: es)

theorem Script.transforms {xs ys : List α} {es : List (Edit α)} (h : Script xs ys es) :
    Transforms xs ys es := by
  induction h with
  | nil => exact ⟨rfl, rfl, by simp⟩
  | equal a _ ih =>
    refine ⟨?_, ?_, ?_⟩
    · simpa [oldProjection, Edit.ofEqual] using ih.oldLines
    · simpa [newProjection, Edit.ofEqual] using ih.newLines
    · simpa [Edit.ofEqual] using ih.equalPairs
  | delete a _ ih =>
    refine ⟨?_, ?_, ?_⟩
    · simpa [oldProjection, Edit.ofDelete] using ih.oldLines
    · simpa [newProjection, Edit.ofDelete] using ih.newLines
    · simpa [Edit.ofDelete] using ih.equalPairs
  | insert a _ ih =>
    refine ⟨?_, ?_, ?_⟩
    · simpa [oldProjection, Edit.ofInsert] using ih.oldLines
    · simpa [newProjection, Edit.ofInsert] using ih.newLines
    · simpa [Edit.ofInsert] using ih.equalPairs

theorem Script.append {xs ys xs' ys' : List α} {es es' : List (Edit α)} (h : Script xs ys es)
    (h' : Script xs' ys' es') : Script (xs ++ xs') (ys ++ ys') (es ++ es') := by
  induction h with
  | nil => exact h'
  | equal a _ ih => exact .equal a ih
  | delete a _ ih => exact .delete a ih
  | insert a _ ih => exact .insert a ih

theorem script_deletes (xs : List α) : Script xs [] (xs.map Edit.ofDelete) := by
  induction xs with
  | nil => exact .nil
  | cons x xs ih => exact .delete x ih

theorem script_inserts (ys : List α) : Script [] ys (ys.map Edit.ofInsert) := by
  induction ys with
  | nil => exact .nil
  | cons y ys ih => exact .insert y ih

theorem script_equals (xs : List α) : Script xs xs (xs.map fun s => Edit.ofEqual s s) := by
  induction xs with
  | nil => exact .nil
  | cons x xs ih => exact .equal x ih

def equalRun (old new : List α) : ℕ → ℕ → ℕ → Option (List (Edit α))
  | _, _, 0 => some []
  | i, j, len + 1 => do
    let o ← old[i]?
    let n ← new[j]?
    let rest ← equalRun old new (i + 1) (j + 1) len
    some (.ofEqual o n :: rest)

def deleteRun (old : List α) (a b : ℕ) : Option (List (Edit α)) :=
  (sliceOf old a b).map (·.map Edit.ofDelete)

def insertRun (new : List α) (a b : ℕ) : Option (List (Edit α)) :=
  (sliceOf new a b).map (·.map Edit.ofInsert)

theorem equalRun_spec (old new : List α) {i j n : ℕ} (hi : i + n ≤ old.length)
    (he : slice old i (i + n) = slice new j (j + n)) :
    ∃ es, equalRun old new i j n = some es ∧
      Script (slice old i (i + n)) (slice new j (j + n)) es := by
  induction n generalizing i j with
  | zero => exact ⟨[], rfl, by simpa using Script.nil⟩
  | succ n ih =>
    have ho := getElem?_eq_getElem (l := old) (i := i) (by omega)
    rw [slice_cons (by omega) ho] at he
    have hn : new[j]? = some old[i] := by
      have h0 := congrArg (·[0]?) he
      simp only [getElem?_cons_zero] at h0
      rw [getElem?_slice (by omega)] at h0
      exact h0.symm
    rw [slice_cons (by omega) hn] at he
    have hrest := (cons.inj he).2
    have ea : i + (n + 1) = i + 1 + n := by omega
    have eb : j + (n + 1) = j + 1 + n := by omega
    rw [ea, eb] at hrest
    obtain ⟨es, hes, hs⟩ := ih (by omega) hrest
    refine ⟨.ofEqual old[i] old[i] :: es, by simp [equalRun, ho, hn, hes], ?_⟩
    rw [slice_cons (by omega) ho, slice_cons (by omega) hn, ea, eb]
    exact .equal _ hs

theorem deleteRun_spec (old : List α) {a b : ℕ} (hab : a ≤ b) (hb : b ≤ old.length) :
    ∃ es, deleteRun old a b = some es ∧ Script (slice old a b) [] es :=
  ⟨_, by rw [deleteRun, sliceOf_eq hab hb]; rfl, script_deletes _⟩

theorem insertRun_spec (new : List α) {a b : ℕ} (hab : a ≤ b) (hb : b ≤ new.length) :
    ∃ es, insertRun new a b = some es ∧ Script [] (slice new a b) es :=
  ⟨_, by rw [insertRun, sliceOf_eq hab hb]; rfl, script_inserts _⟩

end GitComet.FileDiff

namespace GitComet.FileDiff
open Slice CommonPrefix

variable {α : Type} [DecidableEq α]

def myersFallbackEdits (old new : List α) : Option (List (Edit α)) := do
  let ends := commonEnds old new
  let oldMidEnd := old.length - ends.2
  let newMidEnd := new.length - ends.2
  let head ← equalRun old new 0 0 ends.1
  let deletes ← deleteRun old ends.1 oldMidEnd
  let inserts ← insertRun new ends.1 newMidEnd
  let tail ← equalRun old new oldMidEnd newMidEnd ends.2
  some (head ++ deletes ++ inserts ++ tail)

def positionalPairs (oldMid newMid : List α) : ℕ → ℕ → Option (List (Edit α))
  | _, 0 => some []
  | i, paired + 1 => do
    let o ← oldMid[i]?
    let n ← newMid[i]?
    let rest ← positionalPairs oldMid newMid (i + 1) paired
    if o = n then some (.ofEqual o n :: rest) else some (.ofDelete o :: .ofInsert n :: rest)

def positionalFallbackEdits (old new : List α) : Option (List (Edit α)) := do
  let ends := commonEnds old new
  let oldMidEnd := old.length - ends.2
  let newMidEnd := new.length - ends.2
  let oldMid ← sliceOf old ends.1 oldMidEnd
  let newMid ← sliceOf new ends.1 newMidEnd
  let paired := min oldMid.length newMid.length
  let head ← equalRun old new 0 0 ends.1
  let pairs ← positionalPairs oldMid newMid 0 paired
  let deletes ← deleteRun oldMid paired oldMid.length
  let inserts ← insertRun newMid paired newMid.length
  let tail ← equalRun old new oldMidEnd newMidEnd ends.2
  some (head ++ pairs ++ deletes ++ inserts ++ tail)

theorem positionalPairs_spec (xs ys : List α) {i n : ℕ} (hx : i + n ≤ xs.length)
    (hy : i + n ≤ ys.length) :
    ∃ es, positionalPairs xs ys i n = some es ∧
      Script (slice xs i (i + n)) (slice ys i (i + n)) es := by
  induction n generalizing i with
  | zero => exact ⟨[], rfl, by simpa using Script.nil⟩
  | succ n ih =>
    have ho := List.getElem?_eq_getElem (l := xs) (i := i) (by omega)
    have hn := List.getElem?_eq_getElem (l := ys) (i := i) (by omega)
    obtain ⟨es, hes, hs⟩ := ih (i := i + 1) (by omega) (by omega)
    have ei : i + (n + 1) = i + 1 + n := by omega
    rw [slice_cons (by omega) ho, slice_cons (by omega) hn, ei]
    by_cases h : xs[i] = ys[i]
    · refine ⟨.ofEqual xs[i] ys[i] :: es, by simp [positionalPairs, ho, hn, hes, h], ?_⟩
      rw [h]
      exact .equal _ hs
    · exact ⟨.ofDelete xs[i] :: .ofInsert ys[i] :: es,
        by simp [positionalPairs, ho, hn, hes, h], .delete _ (.insert _ hs)⟩

theorem commonHead_spec (old new : List α) :
    ∃ es, equalRun old new 0 0 (commonEnds old new).1 = some es ∧
      Script (slice old 0 (commonEnds old new).1) (slice new 0 (commonEnds old new).1) es := by
  have he := commonEnds_spec old new
  have h := equalRun_spec old new (i := 0) (j := 0)
    (n := (commonEnds old new).1) (by have := he.left; omega) (by simpa using he.head)
  simpa using h

theorem commonTail_spec (old new : List α) :
    ∃ es, equalRun old new (old.length - (commonEnds old new).2)
        (new.length - (commonEnds old new).2) (commonEnds old new).2 = some es ∧
      Script (slice old (old.length - (commonEnds old new).2) old.length)
        (slice new (new.length - (commonEnds old new).2) new.length) es := by
  have he := commonEnds_spec old new
  have hl := he.left
  have hr := he.right
  have eo : old.length - (commonEnds old new).2 + (commonEnds old new).2 = old.length := by omega
  have en : new.length - (commonEnds old new).2 + (commonEnds old new).2 = new.length := by omega
  have h := equalRun_spec old new (i := old.length - (commonEnds old new).2)
    (j := new.length - (commonEnds old new).2) (n := (commonEnds old new).2)
    (by omega) (by rw [eo, en]; exact he.tail)
  rwa [eo, en] at h

theorem myersFallbackEdits_spec (old new : List α) :
    ∃ es, myersFallbackEdits old new = some es ∧ Script old new es := by
  have he := commonEnds_spec old new
  have hl := he.left
  have hr := he.right
  obtain ⟨head, hhead, shead⟩ := commonHead_spec old new
  obtain ⟨deletes, hdeletes, sdeletes⟩ := deleteRun_spec old
    (a := (commonEnds old new).1) (b := old.length - (commonEnds old new).2)
    (by omega) (by omega)
  obtain ⟨inserts, hinserts, sinserts⟩ := insertRun_spec new
    (a := (commonEnds old new).1) (b := new.length - (commonEnds old new).2)
    (by omega) (by omega)
  obtain ⟨tail, htail, stail⟩ := commonTail_spec old new
  refine ⟨head ++ deletes ++ inserts ++ tail,
    by simp [myersFallbackEdits, hhead, hdeletes, hinserts, htail], ?_⟩
  have h := (shead.append (sdeletes.append sinserts)).append stail
  rw [List.append_nil, List.nil_append, ← split_ends old hl, ← split_ends new hr] at h
  simpa using h

theorem positionalMiddle_spec (xs ys : List α) :
    ∃ pairs deletes inserts, positionalPairs xs ys 0 (min xs.length ys.length) = some pairs ∧
      deleteRun xs (min xs.length ys.length) xs.length = some deletes ∧
      insertRun ys (min xs.length ys.length) ys.length = some inserts ∧
      Script xs ys (pairs ++ deletes ++ inserts) := by
  obtain ⟨pairs, hpairs, spairs⟩ := positionalPairs_spec xs ys (i := 0)
    (n := min xs.length ys.length) (by omega) (by omega)
  obtain ⟨deletes, hdeletes, sdeletes⟩ := deleteRun_spec xs
    (a := min xs.length ys.length) (b := xs.length) (by omega) (by omega)
  obtain ⟨inserts, hinserts, sinserts⟩ := insertRun_spec ys
    (a := min xs.length ys.length) (b := ys.length) (by omega) (by omega)
  refine ⟨pairs, deletes, inserts, hpairs, hdeletes, hinserts, ?_⟩
  have h := spairs.append (sdeletes.append sinserts)
  simp only [Nat.zero_add, List.append_nil, List.nil_append] at h
  rw [slice_append _ (by omega) (by omega), slice_append _ (by omega) (by omega), slice_full,
    slice_full] at h
  simpa using h

theorem positionalFallbackEdits_spec (old new : List α) :
    ∃ es, positionalFallbackEdits old new = some es ∧ Script old new es := by
  have he := commonEnds_spec old new
  have hl := he.left
  have hr := he.right
  obtain ⟨head, hhead, shead⟩ := commonHead_spec old new
  obtain ⟨tail, htail, stail⟩ := commonTail_spec old new
  obtain ⟨pairs, deletes, inserts, hpairs, hdeletes, hinserts, smid⟩ := positionalMiddle_spec
    (slice old (commonEnds old new).1 (old.length - (commonEnds old new).2))
    (slice new (commonEnds old new).1 (new.length - (commonEnds old new).2))
  refine ⟨head ++ pairs ++ deletes ++ inserts ++ tail, ?_, ?_⟩
  · have ho := sliceOf_eq (l := old) (a := (commonEnds old new).1)
      (b := old.length - (commonEnds old new).2) (by omega) (by omega)
    have hn := sliceOf_eq (l := new) (a := (commonEnds old new).1)
      (b := new.length - (commonEnds old new).2) (by omega) (by omega)
    simp [positionalFallbackEdits, ho, hn, hhead, hpairs, hdeletes, hinserts, htail]
  · have h := (shead.append smid).append stail
    rw [← split_ends old hl, ← split_ends new hr] at h
    simpa using h

end GitComet.FileDiff
