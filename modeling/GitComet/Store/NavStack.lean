import Mathlib.Data.List.Chain

namespace GitComet.Store
open List Option

def navHistoryCap : ℕ := 64

inductive ViewNavDir where
  | back | forward
  deriving DecidableEq

structure NavStack (T : Type) where
  entries : List T
  cursor : ℕ
  deriving DecidableEq

namespace NavStack

variable {T : Type}

def default : NavStack T := ⟨[], 0⟩

def clear (_ : NavStack T) : NavStack T := ⟨[], 0⟩

section

variable (h : NavStack T)

def current : Option T := h.entries[h.cursor]?

def canBack : Bool := 0 < h.cursor

def canForward : Bool := h.cursor + 1 < h.entries.length

def branch (entry : T) : NavStack T :=
  let entries := h.entries.take (h.cursor + 1) ++ [entry]
  let entries :=
    if entries.length > navHistoryCap then entries.drop (entries.length - navHistoryCap)
    else entries
  ⟨entries, entries.length - 1⟩

def step (dir : ViewNavDir) : NavStack T × Option T :=
  match dir with
  | .back =>
    if h.canBack then ({ h with cursor := h.cursor - 1 }, h.entries[h.cursor - 1]?) else (h, none)
  | .forward =>
    if h.canForward then ({ h with cursor := h.cursor + 1 }, h.entries[h.cursor + 1]?)
    else (h, none)

variable [DecidableEq T]

def record (entry : T) : NavStack T := if h.current = some entry then h else h.branch entry

def replaceCurrent (entry : T) : NavStack T :=
  if h.current = some entry then h
  else if h.entries.isEmpty then ⟨h.entries ++ [entry], 0⟩
  else if 0 < h.cursor ∧ h.entries[h.cursor - 1]? = some entry then
    ⟨h.entries.eraseIdx h.cursor, h.cursor - 1⟩
  else { h with entries := h.entries.set h.cursor entry }

def reconcile (cur : T) (push : Bool) : NavStack T :=
  if h.current = some cur then h
  else if h.entries.isEmpty then ⟨h.entries ++ [cur], 0⟩
  else if push then h.branch cur
  else if h.cursor + 1 < h.entries.length then h
  else h.replaceCurrent cur

def seekOrRecord (entry : T) : NavStack T :=
  match h.entries.findIdx? (· = entry) with
  | some idx => { h with cursor := idx }
  | none => h.record entry

end

inductive Event (T : Type) where
  | record (entry : T)
  | reconcile (cur : T) (push : Bool)
  | replaceCurrent (entry : T)
  | step (dir : ViewNavDir)
  | seekOrRecord (entry : T)
  | clear
  deriving DecidableEq

section

variable [DecidableEq T]

def apply (h : NavStack T) : Event T → NavStack T
  | .record entry => h.record entry
  | .reconcile cur push => h.reconcile cur push
  | .replaceCurrent entry => h.replaceCurrent entry
  | .step dir => (h.step dir).1
  | .seekOrRecord entry => h.seekOrRecord entry
  | .clear => h.clear

def run (events : List (Event T)) : NavStack T := events.foldl apply default

end

structure Bounded (h : NavStack T) : Prop where
  cursor : h.entries = [] ∧ h.cursor = 0 ∨ h.cursor < h.entries.length
  capped : h.entries.length ≤ navHistoryCap

def Apart (h : NavStack T) : Prop := h.entries.IsChain (· ≠ ·)

def FreshAhead (h : NavStack T) : Event T → Prop
  | .replaceCurrent entry => h.entries[h.cursor + 1]? ≠ some entry
  | _ => True

variable {h : NavStack T}

theorem Bounded.empty : (default : NavStack T).Bounded := ⟨.inl ⟨rfl, rfl⟩, by simp [default]⟩

theorem Bounded.branch (h : NavStack T) (entry : T) : (h.branch entry).Bounded := by
  have hpos : 0 < (h.entries.take (h.cursor + 1) ++ [entry]).length := by simp
  have hcap : 0 < navHistoryCap := by decide
  simp only [NavStack.branch]
  split_ifs with hlong
  · refine ⟨.inr ?_, ?_⟩ <;> simp only [length_drop] <;> omega
  · exact ⟨.inr (Nat.sub_lt hpos Nat.one_pos), Nat.le_of_not_lt hlong⟩

theorem Bounded.single (entry : T) : (⟨[entry], 0⟩ : NavStack T).Bounded :=
  ⟨.inr Nat.one_pos, Nat.le_add_left 1 63⟩

theorem Bounded.moved (hb : h.Bounded) {cursor : ℕ} (hlt : cursor < h.entries.length) :
    ({ h with cursor := cursor } : NavStack T).Bounded :=
  ⟨.inr hlt, hb.capped⟩

theorem Bounded.step (hb : h.Bounded) (dir : ViewNavDir) : (h.step dir).1.Bounded := by
  cases dir with
  | back =>
    rw [NavStack.step]
    split_ifs with hback
    · have hpos : 0 < h.cursor := by simpa [canBack] using hback
      have hlt : h.cursor < h.entries.length := by have := hb.cursor; omega
      exact hb.moved (by omega)
    · exact hb
  | forward =>
    rw [NavStack.step]
    split_ifs with hforward
    · exact hb.moved (by simpa [canForward] using hforward)
    · exact hb

theorem apart_iff :
    h.Apart ↔ ∀ i entry, h.entries[i]? = some entry → h.entries[i + 1]? ≠ some entry := by
  rw [Apart, isChain_iff_getElem]
  constructor
  · intro hapart i entry hhere hnext
    obtain ⟨hlt, hnext⟩ := List.getElem?_eq_some_iff.mp hnext
    obtain ⟨_, hhere⟩ := List.getElem?_eq_some_iff.mp hhere
    exact hapart i hlt (hhere.trans hnext.symm)
  · intro hapart i hlt hsame
    exact hapart i _ (getElem?_eq_getElem (by omega))
      ((getElem?_eq_getElem hlt).trans (congrArg some hsame.symm))

theorem Apart.branch (hb : h.Bounded) (ha : h.Apart) {entry : T}
    (hnew : h.current ≠ some entry) : (h.branch entry).Apart := by
  have hkept : (h.entries.take (h.cursor + 1) ++ [entry]).IsChain (· ≠ ·) := by
    refine isChain_append.mpr ⟨IsChain.take ha _, .singleton _, ?_⟩
    intro last hlast next hnext hsame
    obtain rfl : entry = next := by simpa using hnext
    obtain ⟨hnil, -⟩ | hlt := hb.cursor
    · simp [hnil] at hlast
    · rw [take_succ_eq_append_getElem hlt, mem_def, getLast?_concat] at hlast
      refine hnew ?_
      rw [current, getElem?_eq_getElem hlt, hlast, hsame]
  simp only [Apart, NavStack.branch]
  split_ifs
  · exact IsChain.drop hkept _
  · exact hkept

theorem apart_set_iff (ha : h.Apart) (hlt : h.cursor < h.entries.length) {entry : T}
    (hbefore : ¬(0 < h.cursor ∧ h.entries[h.cursor - 1]? = some entry)) :
    ({ h with entries := h.entries.set h.cursor entry } : NavStack T).Apart ↔
      h.entries[h.cursor + 1]? ≠ some entry := by
  rw [apart_iff] at ha ⊢
  constructor
  · intro hset hnext
    refine hset h.cursor entry ?_ ?_
    · exact getElem?_set_self hlt
    · simpa using hnext
  · intro hfresh i other hhere hnext
    simp only [getElem?_set] at hhere hnext
    split_ifs at hhere hnext with hi hnexti
    · omega
    · obtain rfl : entry = other := some.inj hhere
      exact hfresh (hi ▸ hnext)
    · obtain rfl : entry = other := some.inj hnext
      exact hbefore ⟨by omega, by rw [show h.cursor - 1 = i by omega, hhere]⟩
    · exact ha i other hhere hnext

theorem apart_eraseIdx_iff (ha : h.Apart) {entry : T} (hpos : 0 < h.cursor)
    (hbefore : h.entries[h.cursor - 1]? = some entry) :
    (⟨h.entries.eraseIdx h.cursor, h.cursor - 1⟩ : NavStack T).Apart ↔
      h.entries[h.cursor + 1]? ≠ some entry := by
  rw [apart_iff] at ha ⊢
  simp only [getElem?_eraseIdx]
  constructor
  · intro herased hnext
    refine herased (h.cursor - 1) entry ?_ ?_
    · rw [if_pos (by omega), hbefore]
    · rw [Nat.sub_add_cancel hpos, if_neg (lt_irrefl _), hnext]
  · intro hfresh i other hhere hnext
    split_ifs at hhere hnext with hi hnexti
    · exact ha i other hhere hnext
    · have hi : i + 1 = h.cursor := by omega
      rw [← hi, Nat.add_sub_cancel, hhere] at hbefore
      obtain rfl : other = entry := some.inj hbefore
      exact hfresh (hi ▸ hnext)
    · omega
    · exact ha (i + 1) other hhere hnext

theorem step_entries (h : NavStack T) (dir : ViewNavDir) : (h.step dir).1.entries = h.entries := by
  cases dir <;> rw [NavStack.step] <;> split_ifs <;> rfl

theorem Apart.step_changes (ha : h.Apart) (dir : ViewNavDir) {entry : T}
    (hstep : (h.step dir).2 = some entry) : h.current ≠ some entry := by
  rw [apart_iff] at ha
  intro hshown
  cases dir with
  | back =>
    rw [NavStack.step] at hstep
    split_ifs at hstep with hback
    have hpos : 0 < h.cursor := by simpa [canBack] using hback
    refine ha (h.cursor - 1) entry hstep ?_
    rwa [Nat.sub_add_cancel hpos]
  | forward =>
    rw [NavStack.step] at hstep
    split_ifs at hstep
    exact ha h.cursor entry hshown hstep

theorem Bounded.back_forward (hb : h.Bounded) (hback : h.canBack) :
    (h.step .back).1.step .forward = (h, h.current) := by
  have hpos : 0 < h.cursor := by simpa [canBack] using hback
  have hlt : h.cursor < h.entries.length := by have := hb.cursor; omega
  have hsub : h.cursor - 1 + 1 = h.cursor := Nat.sub_add_cancel hpos
  simp only [NavStack.step, if_pos hback, canForward, hsub, hlt, decide_true, if_true, current]

variable [DecidableEq T]

theorem Bounded.record (hb : h.Bounded) (entry : T) : (h.record entry).Bounded := by
  rw [NavStack.record]
  split_ifs
  · exact hb
  · exact .branch h entry

theorem Bounded.replaceCurrent (hb : h.Bounded) (entry : T) : (h.replaceCurrent entry).Bounded := by
  rw [NavStack.replaceCurrent]
  split_ifs with hsame hempty hback
  · exact hb
  · rw [List.isEmpty_iff.mp hempty]
    exact .single entry
  · obtain ⟨hnil, -⟩ | hlt := hb.cursor
    · exact absurd hnil (by simpa using hempty)
    · have hlen := length_eraseIdx_of_lt hlt
      have hcap := hb.capped
      exact ⟨.inr (by simp only [hlen]; omega), by simp only [hlen]; omega⟩
  · exact ⟨by simpa using hb.cursor, by simpa using hb.capped⟩

theorem Bounded.reconcile (hb : h.Bounded) (cur : T) (push : Bool) :
    (h.reconcile cur push).Bounded := by
  rw [NavStack.reconcile]
  split_ifs with hsame hempty
  · exact hb
  · rw [List.isEmpty_iff.mp hempty]
    exact .single cur
  · exact .branch h cur
  · exact hb
  · exact hb.replaceCurrent cur

theorem Bounded.seekOrRecord (hb : h.Bounded) (entry : T) : (h.seekOrRecord entry).Bounded := by
  rw [NavStack.seekOrRecord]
  cases hfound : h.entries.findIdx? (· = entry) with
  | none => exact hb.record entry
  | some idx => exact hb.moved (findIdx?_eq_some_iff_getElem.mp hfound).1

theorem Bounded.apply (hb : h.Bounded) (event : Event T) : (h.apply event).Bounded := by
  cases event with
  | record entry => exact hb.record entry
  | reconcile cur push => exact hb.reconcile cur push
  | replaceCurrent entry => exact hb.replaceCurrent entry
  | step dir => exact hb.step dir
  | seekOrRecord entry => exact hb.seekOrRecord entry
  | clear => exact .empty

theorem bounded_foldl (events : List (Event T)) (hb : h.Bounded) :
    (events.foldl NavStack.apply h).Bounded := by
  induction events generalizing h with
  | nil => exact hb
  | cons event events ih => exact ih (hb.apply event)

theorem bounded_run (events : List (Event T)) : (run events).Bounded :=
  bounded_foldl events .empty

theorem Apart.record (hb : h.Bounded) (ha : h.Apart) (entry : T) : (h.record entry).Apart := by
  rw [NavStack.record]
  split_ifs with hsame
  · exact ha
  · exact ha.branch hb hsame

theorem apart_replaceCurrent_iff (hb : h.Bounded) (ha : h.Apart) (entry : T) :
    (h.replaceCurrent entry).Apart ↔ h.entries[h.cursor + 1]? ≠ some entry := by
  rw [NavStack.replaceCurrent]
  split_ifs with hsame hempty hback
  · exact iff_of_true ha (apart_iff.mp ha _ _ hsame)
  · rw [List.isEmpty_iff.mp hempty]
    exact iff_of_true (.singleton _) (by simp)
  · exact apart_eraseIdx_iff ha hback.1 hback.2
  · obtain ⟨hnil, -⟩ | hlt := hb.cursor
    · exact absurd hnil (by simpa using hempty)
    · exact apart_set_iff ha hlt hback

theorem Apart.reconcile (hb : h.Bounded) (ha : h.Apart) (cur : T) (push : Bool) :
    (h.reconcile cur push).Apart := by
  rw [NavStack.reconcile]
  split_ifs with hsame hempty hpush hparked
  · exact ha
  · rw [List.isEmpty_iff.mp hempty]
    exact .singleton _
  · exact ha.branch hb hsame
  · exact ha
  · refine (apart_replaceCurrent_iff hb ha cur).mpr ?_
    rw [getElem?_eq_none (Nat.le_of_not_lt hparked)]
    exact nofun

theorem Apart.seekOrRecord (hb : h.Bounded) (ha : h.Apart) (entry : T) :
    (h.seekOrRecord entry).Apart := by
  rw [NavStack.seekOrRecord]
  cases h.entries.findIdx? (· = entry) with
  | none => exact ha.record hb entry
  | some idx => exact ha

theorem apart_apply_iff (hb : h.Bounded) (ha : h.Apart) (event : Event T) :
    (h.apply event).Apart ↔ h.FreshAhead event := by
  cases event with
  | replaceCurrent entry => exact apart_replaceCurrent_iff hb ha entry
  | record entry => exact iff_of_true (ha.record hb entry) trivial
  | reconcile cur push => exact iff_of_true (ha.reconcile hb cur push) trivial
  | step dir => exact iff_of_true (by rw [Apart, apply, step_entries]; exact ha) trivial
  | seekOrRecord entry => exact iff_of_true (ha.seekOrRecord hb entry) trivial
  | clear => exact iff_of_true .nil trivial

theorem reconcile_parked (h : NavStack T) (cur : T) (hparked : h.cursor + 1 < h.entries.length) :
    h.reconcile cur false = h := by
  have hsome : h.entries.isEmpty = false := by
    rw [isEmpty_eq_false_iff, ← length_pos_iff]
    omega
  simp [NavStack.reconcile, hsome, hparked]

structure WellKept (h : NavStack T) : Prop where
  cursor : h.entries = [] ∧ h.cursor = 0 ∨ h.cursor < h.entries.length
  capped : h.entries.length ≤ navHistoryCap
  apart : ∀ i entry, h.entries[i]? = some entry → h.entries[i + 1]? ≠ some entry
  changes : ∀ dir entry, (h.step dir).2 = some entry → h.current ≠ some entry
  parked : ∀ cur, h.cursor + 1 < h.entries.length → h.reconcile cur false = h
  returns : h.canBack = true → (h.step .back).1.step .forward = (h, h.current)

theorem wellKept_iff (hb : h.Bounded) : h.WellKept ↔ h.Apart :=
  ⟨fun hkept => apart_iff.mpr hkept.apart, fun ha =>
    ⟨hb.cursor, hb.capped, apart_iff.mp ha, fun dir _ hstep => ha.step_changes dir hstep,
      h.reconcile_parked, hb.back_forward⟩⟩

theorem run_concat (events : List (Event T)) (event : Event T) :
    run (events ++ [event]) = (run events).apply event := by
  simp [run]

theorem apart_prefixes_iff (events : List (Event T)) :
    (∀ n, (run (events.take n)).Apart) ↔
      ∀ n event, events[n]? = some event → (run (events.take n)).FreshAhead event := by
  constructor
  · intro hall n event hevent
    rw [← apart_apply_iff (bounded_run _) (hall n), ← run_concat]
    obtain ⟨hlt, rfl⟩ := List.getElem?_eq_some_iff.mp hevent
    rw [← take_succ_eq_append_getElem hlt]
    exact hall (n + 1)
  · intro hfresh n
    induction n with
    | zero => exact .nil
    | succ n ih =>
      by_cases hlt : n < events.length
      · rw [take_succ_eq_append_getElem hlt, run_concat]
        exact (apart_apply_iff (bounded_run _) ih _).mpr (hfresh n _ (getElem?_eq_getElem hlt))
      · rw [take_of_length_le (by omega)] at ih ⊢
        exact ih

theorem well_kept_throughout_iff (events : List (Event T)) :
    (∀ n, (run (events.take n)).WellKept) ↔
      ∀ n event, events[n]? = some event → (run (events.take n)).FreshAhead event := by
  rw [← apart_prefixes_iff]
  exact forall_congr' fun n => wellKept_iff (bounded_run _)

theorem replaced_entry_repeats_the_next :
    ¬(run [.record 'a', .record 'b', .step .back, .replaceCurrent 'b']).WellKept := by
  intro hkept
  exact hkept.apart 0 'b' (by decide) (by decide)

end NavStack

end GitComet.Store
