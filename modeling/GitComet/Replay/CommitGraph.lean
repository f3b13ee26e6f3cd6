import Mathlib.Order.WellFoundedSet
import GitComet.Basis.ReadyOrder

namespace GitComet.Replay
open List

variable {α : Type}

structure CommitGraph (α : Type) where
  objects : List α
  parents : α → List α
  closed : ∀ c ∈ objects, ∀ p ∈ parents c, p ∈ objects
  acyclic : ∀ c, ¬Relation.TransGen (fun p c => c ∈ objects ∧ p ∈ parents c) c c

namespace CommitGraph

variable (g : CommitGraph α)

def Parent (p c : α) : Prop := c ∈ g.objects ∧ p ∈ g.parents c

def Ancestor : α → α → Prop := Relation.TransGen g.Parent

variable {g}

theorem Ancestor.mem_right {a c : α} (h : g.Ancestor a c) : c ∈ g.objects := by
  cases h with
  | single h => exact h.1
  | tail _ h => exact h.1

theorem Ancestor.mem_left {a c : α} (h : g.Ancestor a c) : a ∈ g.objects := by
  induction h using Relation.TransGen.head_induction_on with
  | single h => exact g.closed _ h.1 _ h.2
  | head h _ _ => exact g.closed _ h.1 _ h.2

theorem ancestor_wellFounded : WellFounded g.Ancestor := by
  have horder : IsStrictOrder α g.Ancestor :=
    { irrefl := g.acyclic, trans := fun _ _ _ => Relation.TransGen.trans }
  have hfinite : {c | c ∈ g.objects}.Finite := finite_toSet _
  have hacc := (Set.wellFoundedOn_iff.mp (Set.Finite.wellFoundedOn (r := g.Ancestor) hfinite))
  refine hacc.mono ?_
  exact fun a c h => ⟨h, h.mem_left, h.mem_right⟩

end CommitGraph

variable (g : CommitGraph α)

def CommitGraph.pushed (c : α) : List α := (g.parents c).reverse

variable [DecidableEq α]

theorem length_filter_notMem_lt {objects visited : List α} {c : α} (hc : c ∈ objects)
    (hvisited : c ∉ visited) :
    (objects.filter (fun o => decide (o ∉ c :: visited))).length <
      (objects.filter (fun o => decide (o ∉ visited))).length := by
  have hsub : (objects.filter fun o => decide (o ∉ c :: visited)) =
      (objects.filter fun o => decide (o ∉ visited)).filter fun o => decide (o ≠ c) := by
    rw [filter_filter]
    refine filter_congr fun o _ => ?_
    simp [not_or]
  rw [hsub]
  exact length_filter_lt_length_iff_exists.mpr
    ⟨c, mem_filter.mpr ⟨hc, by simpa using hvisited⟩, by simp⟩

theorem length_filter_notMem_le (objects visited : List α) (c : α) :
    (objects.filter (fun o => decide (o ∉ c :: visited))).length ≤
      (objects.filter (fun o => decide (o ∉ visited))).length := by
  refine (monotone_filter_right objects fun o ho => ?_).length_le
  simp only [mem_cons, not_or, decide_eq_true_eq] at ho ⊢
  exact ho.2

def nearestSelected (selected : α → Option ℕ) (descendantIx : ℕ) (stack visited : List α)
    (direct : List ℕ) : Option (List ℕ) :=
  match stack with
  | [] => some direct
  | candidate :: stack =>
    if _hvisited : candidate ∈ visited then
      nearestSelected selected descendantIx stack visited direct
    else
      match selected candidate with
      | some ancestorIx =>
        if ancestorIx ≠ descendantIx ∧ ancestorIx ∉ direct then
          nearestSelected selected descendantIx stack (candidate :: visited)
            (direct ++ [ancestorIx])
        else nearestSelected selected descendantIx stack (candidate :: visited) direct
      | none =>
        if _hstored : candidate ∈ g.objects then
          nearestSelected selected descendantIx (g.pushed candidate ++ stack)
            (candidate :: visited) direct
        else none
termination_by ((g.objects.filter (fun o => decide (o ∉ visited))).length, stack.length)
decreasing_by
  · exact Prod.Lex.right _ (by simp)
  · exact (Prod.lex_iff.mpr (by
      have := length_filter_notMem_le g.objects visited candidate
      simp only [length_cons]
      omega))
  · exact (Prod.lex_iff.mpr (by
      have := length_filter_notMem_le g.objects visited candidate
      simp only [length_cons]
      omega))
  · exact Prod.Lex.left _ _ (length_filter_notMem_lt _hstored _hvisited)

variable {g} {selected : α → Option ℕ} {descendant : α}

inductive Reach (g : CommitGraph α) (selected : α → Option ℕ) (descendant : α) : α → Prop
  | parent {v : α} : v ∈ g.parents descendant → Reach g selected descendant v
  | pass {u v : α} : Reach g selected descendant u → selected u = none → v ∈ g.parents u →
      Reach g selected descendant v

omit [DecidableEq α] in
theorem Reach.ancestor {v : α} (hdescendant : descendant ∈ g.objects)
    (h : Reach g selected descendant v) : g.Ancestor v descendant := by
  induction h with
  | parent hv => exact .single ⟨hdescendant, hv⟩
  | pass _ _ hv ih => exact .head ⟨ih.mem_left, hv⟩ ih

structure Walking (g : CommitGraph α) (selected : α → Option ℕ) (descendant : α)
    (descendantIx : ℕ) (stack visited : List α) (direct : List ℕ) : Prop where
  stacked : ∀ v ∈ stack, Reach g selected descendant v
  walked : ∀ v ∈ visited, Reach g selected descendant v
  near : ∀ p ∈ g.parents descendant, p ∈ visited ∨ p ∈ stack
  passed : ∀ u ∈ visited, selected u = none → ∀ p ∈ g.parents u, p ∈ visited ∨ p ∈ stack
  answer : ∀ a, a ∈ direct ↔ a ≠ descendantIx ∧ ∃ v ∈ visited, selected v = some a
  nodup : direct.Nodup

namespace Walking

variable {descendantIx : ℕ} {stack visited : List α} {direct : List ℕ} {candidate : α}

omit [DecidableEq α] in
theorem start (descendantIx : ℕ) :
    Walking g selected descendant descendantIx (g.pushed descendant) [] [] where
  stacked := fun _ hv => .parent (mem_reverse.mp hv)
  walked := fun _ hv => absurd hv not_mem_nil
  near := fun _ hp => .inr (mem_reverse.mpr hp)
  passed := fun _ hu => absurd hu not_mem_nil
  answer := fun a => by simp
  nodup := nodup_nil

omit [DecidableEq α] in
theorem skip (h : Walking g selected descendant descendantIx (candidate :: stack) visited direct)
    (hvisited : candidate ∈ visited) :
    Walking g selected descendant descendantIx stack visited direct where
  stacked := fun v hv => h.stacked v (mem_cons_of_mem _ hv)
  walked := h.walked
  near := fun p hp => (h.near p hp).elim .inl fun hstack =>
    (mem_cons.mp hstack).elim (fun heq => .inl (heq ▸ hvisited)) .inr
  passed := fun u hu hpass p hp => (h.passed u hu hpass p hp).elim .inl fun hstack =>
    (mem_cons.mp hstack).elim (fun heq => .inl (heq ▸ hvisited)) .inr
  answer := h.answer
  nodup := h.nodup

omit [DecidableEq α] in
theorem visit (h : Walking g selected descendant descendantIx (candidate :: stack) visited direct)
    (above : List α) {found : List ℕ}
    (habove : ∀ v ∈ above, selected candidate = none ∧ v ∈ g.parents candidate)
    (hparents : selected candidate = none → ∀ p ∈ g.parents candidate, p ∈ above)
    (hfound : ∀ a, a ∈ found ↔ a ∈ direct ∨ a ≠ descendantIx ∧ selected candidate = some a)
    (hnodup : found.Nodup) :
    Walking g selected descendant descendantIx (above ++ stack) (candidate :: visited) found where
  stacked := fun v hv => (mem_append.mp hv).elim
    (fun hmem => .pass (h.stacked candidate mem_cons_self) (habove v hmem).1 (habove v hmem).2)
    fun hmem => h.stacked v (mem_cons_of_mem _ hmem)
  walked := fun v hv => (mem_cons.mp hv).elim
    (fun heq => heq ▸ h.stacked candidate mem_cons_self) (h.walked v)
  near := fun p hp => (h.near p hp).elim (fun hmem => .inl (mem_cons_of_mem _ hmem))
    fun hstack => (mem_cons.mp hstack).elim (fun heq => .inl (heq ▸ mem_cons_self))
      fun hmem => .inr (mem_append_right _ hmem)
  passed := fun u hu hpass p hp => by
    rcases mem_cons.mp hu with rfl | hu
    · exact .inr (mem_append_left _ (hparents hpass p hp))
    · rcases h.passed u hu hpass p hp with hmem | hstack
      · exact .inl (mem_cons_of_mem _ hmem)
      · rcases mem_cons.mp hstack with rfl | hmem
        · exact .inl mem_cons_self
        · exact .inr (mem_append_right _ hmem)
  answer := fun a => by
    rw [hfound, h.answer]
    constructor
    · rintro (⟨hne, v, hv, hselected⟩ | ⟨hne, hselected⟩)
      · exact ⟨hne, v, mem_cons_of_mem _ hv, hselected⟩
      · exact ⟨hne, candidate, mem_cons_self, hselected⟩
    · rintro ⟨hne, v, hv, hselected⟩
      rcases mem_cons.mp hv with rfl | hv
      · exact .inr ⟨hne, hselected⟩
      · exact .inl ⟨hne, v, hv, hselected⟩
  nodup := hnodup

omit [DecidableEq α] in
theorem reached (h : Walking g selected descendant descendantIx [] visited direct) {v : α}
    (hv : Reach g selected descendant v) : v ∈ visited := by
  induction hv with
  | parent hv => exact (h.near _ hv).resolve_right not_mem_nil
  | pass _ hpass hv ih => exact (h.passed _ ih hpass _ hv).resolve_right not_mem_nil

end Walking

theorem nearestSelected_of_walking {descendantIx : ℕ} {stack visited : List α} {direct : List ℕ}
    (hdescendant : descendant ∈ g.objects)
    (h : Walking g selected descendant descendantIx stack visited direct) :
    ∃ found, nearestSelected g selected descendantIx stack visited direct = some found ∧
      found.Nodup ∧ ∀ a, a ∈ found ↔
        a ≠ descendantIx ∧ ∃ v, Reach g selected descendant v ∧ selected v = some a := by
  induction stack, visited, direct using nearestSelected.induct g selected descendantIx with
  | case1 visited direct =>
    refine ⟨direct, by rw [nearestSelected], h.nodup, fun a => ?_⟩
    rw [h.answer]
    refine and_congr_right fun _ => exists_congr fun v => and_congr_left fun _ => ?_
    exact ⟨h.walked v, h.reached⟩
  | case2 visited direct candidate stack hvisited ih =>
    rw [nearestSelected, dif_pos hvisited]
    exact ih (h.skip hvisited)
  | case3 visited direct candidate stack hvisited ancestorIx hselected hnew ih =>
    rw [nearestSelected, dif_neg hvisited, hselected]
    dsimp only
    rw [if_pos hnew]
    refine ih (h.visit [] (fun _ hv => absurd hv not_mem_nil)
      (fun hnone => by rw [hselected] at hnone; cases hnone) (fun a => ?_) ?_)
    · rw [mem_append, mem_singleton, hselected, Option.some_inj]
      refine or_congr_right ⟨fun heq => ⟨heq ▸ hnew.1, heq.symm⟩, fun heq => heq.2.symm⟩
    · exact nodup_append.mpr ⟨h.nodup, nodup_singleton _, fun a ha b hb heq =>
        hnew.2 (mem_singleton.mp hb ▸ heq ▸ ha)⟩
  | case4 visited direct candidate stack hvisited ancestorIx hselected hold ih =>
    rw [nearestSelected, dif_neg hvisited, hselected]
    dsimp only
    rw [if_neg hold]
    refine ih (h.visit [] (fun _ hv => absurd hv not_mem_nil)
      (fun hnone => by rw [hselected] at hnone; cases hnone) (fun a => ?_) h.nodup)
    refine ⟨.inl, fun hor => hor.elim id fun hand => ?_⟩
    rw [hselected, Option.some_inj] at hand
    by_contra hmem
    exact hold ⟨hand.2 ▸ hand.1, hand.2 ▸ hmem⟩
  | case5 visited direct candidate stack hvisited hselected hstored ih =>
    rw [nearestSelected, dif_neg hvisited, hselected]
    dsimp only
    rw [dif_pos hstored]
    refine ih (h.visit _ (fun v hv => ⟨hselected, mem_reverse.mp hv⟩)
      (fun _ p hp => mem_reverse.mpr hp) (fun a => ?_) h.nodup)
    rw [hselected]
    simp
  | case6 visited direct candidate stack hvisited hselected hstored =>
    exact absurd ((h.stacked candidate mem_cons_self).ancestor hdescendant).mem_left hstored

end GitComet.Replay
