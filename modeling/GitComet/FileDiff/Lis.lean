import Mathlib.Data.List.Basic

namespace GitComet.FileDiff
open List Option

def partitionPoint (p : ℕ → Bool) (xs : List ℕ) : Option ℕ :=
  let n := (xs.takeWhile p).length
  if (xs.drop n).all (fun x => !p x) then some n else none

def lisStep (pairs : List (ℕ × ℕ)) (i : ℕ) (tails : List ℕ) : Option (List ℕ × Option ℕ) := do
  let pair ← pairs[i]?
  let keys ← tails.mapM fun t => pairs[t]?.map Prod.snd
  let pos ← partitionPoint (fun key => decide (key < pair.2)) keys
  let tails' := if pos = tails.length then tails ++ [i] else tails.set pos i
  if 0 < pos then do
    let p ← tails'[pos - 1]?
    some (tails', some p)
  else some (tails', none)

def lisLoop (pairs : List (ℕ × ℕ)) :
    ℕ → ℕ → List ℕ → List (Option ℕ) → Option (List ℕ × List (Option ℕ))
  | 0, _, tails, prev => some (tails, prev)
  | steps + 1, i, tails, prev => do
    let (tails, link) ← lisStep pairs i tails
    match link with
    | some p => lisLoop pairs steps (i + 1) tails (prev.set i (some p))
    | none => lisLoop pairs steps (i + 1) tails prev

def reconstruct (pairs : List (ℕ × ℕ)) (prev : List (Option ℕ)) :
    ℕ → ℕ → List (ℕ × ℕ) → Option (List (ℕ × ℕ))
  | 0, _, _ => none
  | fuel + 1, idx, acc => do
    let pair ← pairs[idx]?
    let link ← prev[idx]?
    match link with
    | some p => reconstruct pairs prev fuel p (pair :: acc)
    | none => some (pair :: acc)

def patienceLis (pairs : List (ℕ × ℕ)) : Option (List (ℕ × ℕ)) :=
  if pairs = [] then some []
  else do
    let (tails, prev) ← lisLoop pairs pairs.length 0 [] (replicate pairs.length none)
    let idx ← tails.getLast?
    reconstruct pairs prev pairs.length idx []

variable {x : ℕ} {keys : List ℕ}

theorem partitionPoint_spec (h : keys.Pairwise (· < ·)) :
    ∃ pos, partitionPoint (fun key => decide (key < x)) keys = some pos ∧ pos ≤ keys.length ∧
      (∀ k ∈ keys.take pos, k < x) ∧ ∀ k ∈ keys.drop pos, x ≤ k := by
  have key : (∀ k ∈ keys.take (keys.takeWhile fun k => decide (k < x)).length, k < x) ∧
      (∀ k ∈ keys.drop (keys.takeWhile fun k => decide (k < x)).length, x ≤ k) ∧
      (keys.takeWhile fun k => decide (k < x)).length ≤ keys.length := by
    induction keys with
    | nil => simp
    | cons k ks ih =>
      obtain ⟨hk, hks⟩ := List.pairwise_cons.mp h
      obtain ⟨hlow, hhigh, hlen⟩ := ih hks
      by_cases hx : k < x
      · simp only [takeWhile_cons, hx, decide_true, if_true, length_cons,
          take_succ_cons, drop_succ_cons, mem_cons, forall_eq_or_imp]
        exact ⟨⟨trivial, hlow⟩, hhigh, by omega⟩
      · simp only [takeWhile_cons, hx, decide_false, Bool.false_eq_true, if_false,
          length_nil, take_zero, drop_zero, mem_cons, forall_eq_or_imp]
        refine ⟨by simp, ⟨by omega, fun j hj => ?_⟩, by omega⟩
        have := hk j hj
        omega
  obtain ⟨hlow, hhigh, hlen⟩ := key
  refine ⟨_, ?_, hlen, hlow, hhigh⟩
  rw [partitionPoint, if_pos]
  simp only [List.all_eq_true, Bool.not_eq_true', decide_eq_false_iff_not, Nat.not_lt]
  exact hhigh

theorem pairwise_set {pos : ℕ} (h : keys.Pairwise (· < ·))
    (hlow : ∀ k ∈ keys.take pos, k < x) (hhigh : ∀ k ∈ keys.drop pos, x ≤ k) :
    (keys.set pos x).Pairwise (· < ·) := by
  induction keys generalizing pos with
  | nil => simp
  | cons k ks ih =>
    obtain ⟨hk, hks⟩ := pairwise_cons.mp h
    cases pos with
    | zero =>
      simp only [drop_zero, mem_cons, forall_eq_or_imp] at hhigh
      refine pairwise_cons.mpr ⟨fun j hj => ?_, hks⟩
      have := hk j hj
      omega
    | succ pos =>
      simp only [take_succ_cons, mem_cons, forall_eq_or_imp] at hlow
      simp only [drop_succ_cons] at hhigh
      refine pairwise_cons.mpr ⟨fun j hj => ?_, ih hks hlow.2 hhigh⟩
      rcases mem_or_eq_of_mem_set hj with hj | rfl
      · exact hk j hj
      · exact hlow.1

theorem pairwise_snoc (h : keys.Pairwise (· < ·))
    (hlow : ∀ k ∈ keys, k < x) : (keys ++ [x]).Pairwise (· < ·) := by
  rw [pairwise_append]
  refine ⟨h, pairwise_singleton _ _, fun j hj k hk => ?_⟩
  rw [mem_singleton.mp hk]
  exact hlow j hj

def keyOf (pairs : List (ℕ × ℕ)) (t : ℕ) : ℕ := (pairs[t]?.map Prod.snd).getD 0

variable {pairs : List (ℕ × ℕ)}

theorem keys_mapM {tails : List ℕ} (h : ∀ t ∈ tails, t < pairs.length) :
    (tails.mapM fun t => pairs[t]?.map Prod.snd) = some (tails.map (keyOf pairs)) := by
  induction tails with
  | nil => rfl
  | cons t ts ih =>
    have ht := h t mem_cons_self
    rw [mapM_cons, ih fun u hu => h u (mem_cons_of_mem _ hu)]
    simp [keyOf, getElem?_eq_getElem ht]

def Link (pairs : List (ℕ × ℕ)) (j p : ℕ) : Prop := p < j ∧ keyOf pairs p < keyOf pairs j

structure Tails (pairs : List (ℕ × ℕ)) (i : ℕ) (tails : List ℕ) : Prop where
  below : ∀ t ∈ tails, t < i
  sorted : (tails.map (keyOf pairs)).Pairwise (· < ·)

structure Placed (pairs : List (ℕ × ℕ)) (i : ℕ) (tails tails' : List ℕ) (link : Option ℕ)
    (pos : ℕ) : Prop where
  get : ∀ q, tails'[q]? = if q = pos then some i else tails[q]?
  low : ∀ q t, tails[q]? = some t → (q < pos ↔ keyOf pairs t < keyOf pairs i)
  first : link = none → pos = 0
  prior : ∀ p, link = some p → 0 < pos ∧ tails[pos - 1]? = some p

theorem lisStep_spec {i : ℕ} {tails : List ℕ} (h : Tails pairs i tails) (hi : i < pairs.length) :
    ∃ tails' link pos, lisStep pairs i tails = some (tails', link) ∧
      Tails pairs (i + 1) tails' ∧ Placed pairs i tails tails' link pos := by
  obtain ⟨hbelow, hsorted⟩ := h
  have hget := getElem?_eq_getElem hi
  have hkey : keyOf pairs i = pairs[i].2 := by simp [keyOf, hget]
  have hkeys := keys_mapM fun t ht => Nat.lt_trans (hbelow t ht) hi
  obtain ⟨pos, hpos, hle, hlow, hhigh⟩ := partitionPoint_spec (x := pairs[i].2) hsorted
  rw [length_map] at hle
  simp only [lisStep, hget, hkeys, hpos, bind_eq_bind, bind_some]
  have htails : Tails pairs (i + 1) (if pos = tails.length then tails ++ [i] else tails.set pos i) ∧
      ∀ q, (if pos = tails.length then tails ++ [i] else tails.set pos i)[q]? =
        if q = pos then some i else tails[q]? := by
    split
    · rename_i hend
      refine ⟨⟨?_, ?_⟩, fun q => ?_⟩
      · simp only [mem_append, mem_singleton]
        rintro t (ht | rfl)
        · have := hbelow t ht
          omega
        · omega
      · rw [map_append, map_singleton, hkey]
        refine pairwise_snoc hsorted ?_
        rwa [hend, ← length_map (keyOf pairs), take_length] at hlow
      · rw [hend]
        split
        · rename_i hq
          rw [hq, getElem?_concat_length]
        · rename_i hq
          rcases Nat.lt_or_ge q tails.length with hlt | hge
          · rw [getElem?_append_left hlt]
          · rw [getElem?_eq_none hge, getElem?_eq_none (by simp; omega)]
    · rename_i hmid
      refine ⟨⟨?_, ?_⟩, fun q => ?_⟩
      · intro t ht
        rcases mem_or_eq_of_mem_set ht with ht | rfl
        · have := hbelow t ht
          omega
        · omega
      · rw [map_set, hkey]
        exact pairwise_set hsorted hlow hhigh
      · rw [getElem?_set, if_pos (show pos < tails.length by omega)]
        simp only [eq_comm]
  obtain ⟨htails, hplace⟩ := htails
  generalize (if pos = tails.length then tails ++ [i] else tails.set pos i) = tails' at *
  have hsplit : ∀ q t, tails[q]? = some t → (q < pos ↔ keyOf pairs t < keyOf pairs i) := by
    intro q t ht
    have hq : (tails.map (keyOf pairs))[q]? = some (keyOf pairs t) := by
      rw [getElem?_map, ht, map_some]
    rw [hkey]
    constructor
    · intro hlt
      exact hlow _ (mem_of_getElem? (by rw [getElem?_take_of_lt hlt, hq]))
    · intro hlt
      by_contra hge
      have hmem := mem_of_getElem? (l := (tails.map (keyOf pairs)).drop pos) (i := q - pos)
        (by rw [getElem?_drop, Nat.add_sub_cancel' (by omega), hq])
      have := hhigh _ hmem
      omega
  by_cases hzero : 0 < pos
  · have hprior := getElem?_eq_getElem (show pos - 1 < tails.length by omega)
    have hprev : tails'[pos - 1]? = some tails[pos - 1] := by
      rw [hplace, if_neg (by omega), hprior]
    refine ⟨tails', some tails[pos - 1], pos, by simp [hzero, hprev], htails, hplace, hsplit,
      by simp, fun p hp => ?_⟩
    cases hp
    exact ⟨hzero, hprior⟩
  · exact ⟨tails', none, pos, by simp [hzero], htails, hplace, hsplit, fun _ => by omega, by simp⟩

section
variable {i pos : ℕ} {tails tails' : List ℕ} {link : Option ℕ}
  (h : Placed pairs i tails tails' link pos)
include h

theorem Placed.nonempty : tails' ≠ [] := by
  rintro rfl
  have := h.get pos
  simp at this

theorem Placed.linked {p : ℕ} (ht : Tails pairs i tails) (hlink : link = some p) :
    Link pairs i p := by
  obtain ⟨hzero, hp⟩ := h.prior p hlink
  exact ⟨ht.below p (mem_of_getElem? hp), (h.low _ p hp).mp (by omega)⟩

theorem Placed.below {q : ℕ} (hq : q < pos) :
    ∃ t, tails[q]? = some t ∧ keyOf pairs t < keyOf pairs i := by
  cases hlink : link with
  | none => exact absurd (h.first hlink) (by omega)
  | some p =>
    have hlt := (List.getElem?_eq_some_iff.mp (h.prior p hlink).2).1
    have hget := getElem?_eq_getElem (show q < tails.length by omega)
    exact ⟨_, hget, (h.low _ _ hget).mp hq⟩

end

theorem tails_nil (pairs : List (ℕ × ℕ)) : Tails pairs 0 [] := ⟨by simp, by simp⟩

structure Linked (pairs : List (ℕ × ℕ)) (prev : List (Option ℕ)) : Prop where
  size : prev.length = pairs.length
  link : ∀ j p, prev[j]? = some (some p) → Link pairs j p

theorem linked_set {prev : List (Option ℕ)} {i p : ℕ}
    (h : Linked pairs prev) (hp : Link pairs i p) : Linked pairs (prev.set i (some p)) := by
  refine ⟨by rw [length_set, h.size], ?_⟩
  intro j q hj
  rw [getElem?_set] at hj
  split at hj
  · rename_i hij
    subst hij
    split at hj
    · simp only [some.injEq] at hj
      exact hj ▸ hp
    · simp at hj
  · exact h.link j q hj

inductive Depth (prev : List (Option ℕ)) : ℕ → ℕ → Prop
  | root {idx : ℕ} (h : prev[idx]? = some none) : Depth prev idx 1
  | next {idx p n : ℕ} (h : prev[idx]? = some (some p)) (hp : Depth prev p n) :
      Depth prev idx (n + 1)

theorem Depth.set {prev : List (Option ℕ)} {i idx n : ℕ} (hl : Linked pairs prev)
    (h : Depth prev idx n) (hlt : idx < i) (link : Option ℕ) : Depth (prev.set i link) idx n := by
  induction h with
  | root h => exact .root (by rw [getElem?_set_ne (by omega), h])
  | next h _ ih =>
    have hp := (hl.link _ _ h).1
    exact .next (by rw [getElem?_set_ne (by omega), h]) (ih (by omega))

structure Piles (pairs : List (ℕ × ℕ)) (i : ℕ) (tails : List ℕ) (prev : List (Option ℕ)) :
    Prop where
  depth : ∀ q t, tails[q]? = some t → Depth prev t (q + 1)
  unset : ∀ j, i ≤ j → j < pairs.length → prev[j]? = some none
  best : ∀ chain, chain <+ pairs.take i → chain.Pairwise (fun a b => a.2 < b.2) →
    ∀ last, chain.getLast? = some last →
      ∃ t, tails[chain.length - 1]? = some t ∧ keyOf pairs t ≤ last.2

theorem piles_nil (pairs : List (ℕ × ℕ)) :
    Piles pairs 0 [] (replicate pairs.length none) := by
  refine ⟨by simp, fun j _ hj => by simp [hj], fun chain hchain _ last hlast => ?_⟩
  rw [take_zero, sublist_nil] at hchain
  simp [hchain] at hlast

theorem Piles.placed {i pos : ℕ} {tails tails' : List ℕ} {prev : List (Option ℕ)}
    {link : Option ℕ} (h : Piles pairs i tails prev) (ht : Tails pairs i tails)
    (hl : Linked pairs prev) (hi : i < pairs.length) (hp : Placed pairs i tails tails' link pos) :
    Piles pairs (i + 1) tails' (prev.set i link) := by
  have hset : (prev.set i link)[i]? = some link := by
    rw [getElem?_set_self (by rw [hl.size]; exact hi)]
  have hkey : keyOf pairs i = pairs[i].2 := by simp [keyOf, getElem?_eq_getElem hi]
  refine ⟨fun q t hq => ?_, fun j hij hj => ?_, fun chain hchain hinc last hlast => ?_⟩
  · rw [hp.get] at hq
    split at hq
    · rename_i hpos
      cases hq
      cases link with
      | none =>
        rw [hpos, hp.first rfl]
        exact .root hset
      | some p =>
        obtain ⟨hzero, hprior⟩ := hp.prior p rfl
        have hdepth := h.depth _ p hprior
        rw [Nat.sub_add_cancel hzero] at hdepth
        rw [hpos]
        exact .next hset (hdepth.set hl (ht.below p (mem_of_getElem? hprior)) _)
    · exact (h.depth q t hq).set hl (ht.below t (mem_of_getElem? hq)) _
  · rw [getElem?_set_ne (by omega), h.unset j (by omega) hj]
  · rw [take_succ_eq_append_getElem hi, sublist_append_iff] at hchain
    obtain ⟨front, back, rfl, hfront, hback⟩ := hchain
    rcases sublist_singleton.mp hback with rfl | rfl
    · rw [append_nil] at hinc hlast ⊢
      obtain ⟨t, ht, hle⟩ := h.best front hfront hinc last hlast
      rw [hp.get]
      split
      · rename_i hpos
        have := (hp.low _ t ht).not.mp (by omega)
        exact ⟨i, rfl, by omega⟩
      · exact ⟨t, ht, hle⟩
    · rw [getLast?_concat, some.injEq] at hlast
      rw [length_append, length_singleton, Nat.add_sub_cancel, ← hlast, ← hkey]
      have hreach : front.length ≤ pos := by
        cases hend : front.getLast? with
        | none => simp [getLast?_eq_none_iff.mp hend]
        | some before =>
          have hbefore := (pairwise_append.mp hinc).2.2 before (mem_of_getLast? hend) pairs[i]
            (mem_singleton_self _)
          obtain ⟨t, ht, hle⟩ := h.best front hfront (pairwise_append.mp hinc).1 before hend
          have := (hp.low _ t ht).mpr (by omega)
          omega
      rw [hp.get]
      split
      · exact ⟨i, rfl, Nat.le_refl _⟩
      · obtain ⟨t, ht, hlt⟩ := hp.below (q := front.length) (by omega)
        exact ⟨t, ht, Nat.le_of_lt hlt⟩

theorem lisLoop_spec (pairs : List (ℕ × ℕ)) (steps : ℕ) : ∀ {i : ℕ} {tails : List ℕ}
    {prev : List (Option ℕ)}, i + steps = pairs.length → (0 < i → tails ≠ []) →
      Tails pairs i tails → Linked pairs prev → Piles pairs i tails prev →
      ∃ tails' prev', lisLoop pairs steps i tails prev = some (tails', prev') ∧
        (0 < pairs.length → tails' ≠ []) ∧ Tails pairs pairs.length tails' ∧
        Linked pairs prev' ∧ Piles pairs pairs.length tails' prev' := by
  induction steps with
  | zero =>
    intro i tails prev hi hne ht hl hpiles
    obtain rfl : i = pairs.length := by omega
    exact ⟨tails, prev, rfl, hne, ht, hl, hpiles⟩
  | succ steps ih =>
    intro i tails prev hi _ ht hl hpiles
    obtain ⟨tails', link, pos, hstep, ht', hplaced⟩ := lisStep_spec ht (by omega)
    have hpiles' := hpiles.placed ht hl (by omega) hplaced
    simp only [lisLoop, hstep, bind_eq_bind, bind_some]
    cases link with
    | none =>
      obtain ⟨_, hunset⟩ := List.getElem?_eq_some_iff.mp (hpiles.unset i (Nat.le_refl i) (by omega))
      rw [(congrArg (prev.set i) hunset.symm).trans (set_getElem_self _)] at hpiles'
      exact ih (by omega) (fun _ => hplaced.nonempty) ht' hl hpiles'
    | some p =>
      exact ih (by omega) (fun _ => hplaced.nonempty) ht' (linked_set hl (hplaced.linked ht rfl))
        hpiles'

def Before (a b : ℕ × ℕ) : Prop := a.1 < b.1 ∧ a.2 < b.2

theorem reconstruct_spec {prev : List (Option ℕ)}
    (hsorted : pairs.Pairwise fun a b => a.1 < b.1) (hl : Linked pairs prev) (fuel : ℕ) :
    ∀ {idx n : ℕ} {acc : List (ℕ × ℕ)}, idx < fuel → idx < pairs.length → Depth prev idx n →
      (∀ pair, pairs[idx]? = some pair → ∀ b ∈ acc, Before pair b) → acc.Pairwise Before →
      acc <+ pairs.drop (idx + 1) →
      ∃ result, reconstruct pairs prev fuel idx acc = some result ∧ result.Pairwise Before ∧
        result.length = n + acc.length ∧ result <+ pairs := by
  induction fuel with
  | zero =>
    intro idx n acc hidx
    omega
  | succ fuel ih =>
    intro idx n acc hidx hlt hdepth hbefore hpair hsub
    have hget := getElem?_eq_getElem hlt
    have hpair' : (pairs[idx] :: acc).Pairwise Before :=
      pairwise_cons.mpr ⟨hbefore _ hget, hpair⟩
    have hsub' : pairs[idx] :: acc <+ pairs.drop idx := by
      rw [drop_eq_getElem_cons hlt]
      exact hsub.cons_cons _
    cases hdepth with
    | root hprev =>
      simp only [reconstruct, hget, hprev, bind_eq_bind, bind_some]
      exact ⟨_, rfl, hpair', by rw [length_cons, Nat.add_comm], hsub'.trans (drop_sublist _ _)⟩
    | next hprev hdepth =>
      rename_i p n
      simp only [reconstruct, hget, hprev, bind_eq_bind, bind_some]
      obtain ⟨hp, hkey⟩ := hl.link idx p hprev
      have hbelow : ∀ pair, pairs[p]? = some pair → ∀ b ∈ pairs[idx] :: acc, Before pair b := by
        intro pair hpget
        have hfirst : Before pair pairs[idx] := by
          have hp' := List.getElem?_eq_some_iff.mp hpget
          refine ⟨?_, by simpa [keyOf, hpget, hget] using hkey⟩
          rw [← hp'.2]
          exact pairwise_iff_getElem.mp hsorted p idx hp'.1 hlt hp
        intro b hb
        rcases mem_cons.mp hb with rfl | hb
        · exact hfirst
        · have := hbefore _ hget b hb
          exact ⟨Nat.lt_trans hfirst.1 this.1, Nat.lt_trans hfirst.2 this.2⟩
      obtain ⟨result, hresult, hinc, hlength, hsub⟩ := ih (by omega) (by omega) hdepth hbelow
        hpair' (hsub'.trans (drop_sublist_drop_left _ hp))
      exact ⟨result, hresult, hinc, by rw [hlength, length_cons]; omega, hsub⟩

theorem patienceLis_spec (hsorted : pairs.Pairwise fun a b => a.1 < b.1) :
    ∃ result, patienceLis pairs = some result ∧ result.Pairwise Before ∧ result <+ pairs ∧
      ∀ chain, chain <+ pairs → chain.Pairwise Before → chain.length ≤ result.length := by
  unfold patienceLis
  by_cases hempty : pairs = []
  · refine ⟨[], by rw [if_pos hempty], Pairwise.nil, by simp, fun chain hchain _ => ?_⟩
    simpa [hempty] using hchain.length_le
  · rw [if_neg hempty]
    have hpos : 0 < pairs.length := length_pos_of_ne_nil hempty
    have hstart : Linked pairs (replicate pairs.length none) := by
      refine ⟨length_replicate, fun j p hj => ?_⟩
      simp [getElem?_replicate] at hj
    obtain ⟨tails, prev, hloop, hne, htails, hl, hpiles⟩ := lisLoop_spec pairs pairs.length
      (i := 0) (by omega) (by omega) (tails_nil pairs) hstart (piles_nil pairs)
    have hlast := getLast?_eq_getLast_of_ne_nil (hne hpos)
    have hidx := htails.below _ (getLast_mem (hne hpos))
    have hdepth := hpiles.depth _ _ (getLast?_eq_getElem?.symm.trans hlast)
    obtain ⟨result, hresult, hbefore, hlength, hsub⟩ := reconstruct_spec hsorted hl pairs.length
      hidx hidx hdepth (by simp) Pairwise.nil (by simp)
    refine ⟨result, by simp [hloop, hlast, hresult], hbefore, hsub, fun chain hchain hinc => ?_⟩
    cases hend : chain.getLast? with
    | none => simp [getLast?_eq_none_iff.mp hend]
    | some last =>
      obtain ⟨t, ht, -⟩ := hpiles.best chain (by rwa [take_length]) (hinc.imp fun hab => hab.2)
        last hend
      have := (List.getElem?_eq_some_iff.mp ht).1
      rw [hlength, length_nil]
      omega

theorem patience_anchors_are_longest (hsorted : pairs.Pairwise fun a b => a.1 < b.1) :
    ∃ result, patienceLis pairs = some result ∧ result <+ pairs ∧
      (result.Pairwise fun a b => a.1 < b.1 ∧ a.2 < b.2) ∧
      ∀ chain, chain <+ pairs → (chain.Pairwise fun a b => a.1 < b.1 ∧ a.2 < b.2) →
        chain.length ≤ result.length := by
  obtain ⟨result, hresult, hbefore, hsub, hlongest⟩ := patienceLis_spec hsorted
  exact ⟨result, hresult, hsub, hbefore, hlongest⟩

theorem crossing_anchors_are_longest :
    [(0, 2), (1, 0), (2, 1)].Pairwise (fun a b : ℕ × ℕ => a.1 < b.1) ∧
      ∃ result, patienceLis [(0, 2), (1, 0), (2, 1)] = some result ∧
        result <+ [(0, 2), (1, 0), (2, 1)] ∧
        (result.Pairwise fun a b => a.1 < b.1 ∧ a.2 < b.2) ∧
        ∀ chain, chain <+ [(0, 2), (1, 0), (2, 1)] →
          (chain.Pairwise fun a b => a.1 < b.1 ∧ a.2 < b.2) → chain.length ≤ result.length :=
  ⟨by decide, patience_anchors_are_longest (by decide)⟩

end GitComet.FileDiff
