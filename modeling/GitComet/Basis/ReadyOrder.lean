import Mathlib.Data.List.Perm.Basic

namespace GitComet.ReadyOrder
open List

variable {α : Type*} (pre : α → α → Prop) (xs : List α)

def Ready (done : List α) (x : α) : Prop := x ∉ done ∧ ∀ y ∈ xs, pre y x → y ∈ done

inductive EarliestFirst : List α → List α → Prop
  | nil {done : List α} : (∀ x ∈ xs, ¬Ready pre xs done x) → EarliestFirst done []
  | cons {done front back rest : List α} {x : α} : xs = front ++ x :: back →
      (∀ y ∈ front, ¬Ready pre xs done y) → Ready pre xs done x →
        EarliestFirst (x :: done) rest → EarliestFirst done (x :: rest)

def Settled (done : List α) : Prop := ∀ x ∈ done, ∀ y ∈ xs, pre y x → y ∈ done

variable {pre xs} {done out : List α} {x y : α}

theorem Settled.cons (h : Settled pre xs done) (hx : Ready pre xs done x) :
    Settled pre xs (x :: done) := by
  intro z hz y hy hpre
  rcases mem_cons.mp hz with rfl | hz
  · exact mem_cons_of_mem _ (hx.2 y hy hpre)
  · exact mem_cons_of_mem _ (h z hz y hy hpre)

namespace EarliestFirst

section
variable (h : EarliestFirst pre xs done out)
include h

theorem subset : out ⊆ xs := by
  induction h with
  | nil _ => exact nil_subset _
  | cons hxs _ _ _ ih =>
    refine cons_subset.mpr ⟨?_, ih⟩
    rw [hxs]
    exact mem_append_right _ mem_cons_self

theorem disjoint : out.Disjoint done := by
  induction h with
  | nil _ => exact disjoint_nil_left _
  | cons _ _ hready _ ih =>
    rw [disjoint_cons_left]
    exact ⟨hready.1, disjoint_of_disjoint_cons_right ih⟩

theorem nodup : out.Nodup := by
  induction h with
  | nil _ => exact nodup_nil
  | cons _ _ _ hrest ih =>
    exact nodup_cons.mpr ⟨fun hmem => hrest.disjoint hmem mem_cons_self, ih⟩

theorem waits (hx : x ∈ xs) (hdone : x ∉ done)
    (hout : x ∉ out) : ∃ y ∈ xs, pre y x ∧ y ∉ done ∧ y ∉ out := by
  induction h with
  | nil hnone =>
    have hunready := hnone x hx
    rw [Ready, not_and, not_forall] at hunready
    obtain ⟨y, hy⟩ := hunready hdone
    rw [Classical.not_imp, Classical.not_imp] at hy
    exact ⟨y, hy.1, hy.2.1, hy.2.2, not_mem_nil⟩
  | cons _ _ _ _ ih =>
    rw [mem_cons, not_or] at hout
    obtain ⟨y, hy, hpre, hdone', hout'⟩ := ih
      (fun hmem => (mem_cons.mp hmem).elim hout.1 hdone) hout.2
    rw [mem_cons, not_or] at hdone'
    exact ⟨y, hy, hpre, hdone'.2, fun hmem => (mem_cons.mp hmem).elim hdone'.1 hout'⟩

end

theorem complete (h : EarliestFirst pre xs [] out) (hpre : WellFounded pre) : xs ⊆ out := by
  intro x
  induction x using hpre.induction with
  | _ x ih =>
    intro hx
    by_contra hout
    obtain ⟨y, hy, hyx, -, hy'⟩ := h.waits hx not_mem_nil hout
    exact hy' (ih y hyx hy)

theorem perm (h : EarliestFirst pre xs [] out) (hpre : WellFounded pre) (hxs : xs.Nodup) :
    out.Perm xs :=
  (perm_ext_iff_of_nodup h.nodup hxs).mpr fun _ => ⟨fun hx => h.subset hx,
    fun hx => h.complete hpre hx⟩

theorem ready_of_split (h : EarliestFirst pre xs done out) {front rest : List α}
    (hout : out = front ++ x :: rest) : Ready pre xs (front.reverse ++ done) x := by
  induction h generalizing front with
  | nil _ => simp at hout
  | cons _ _ hready _ ih =>
    cases front with
    | nil =>
      obtain ⟨rfl, -⟩ := cons.inj hout
      exact hready
    | cons z front =>
      obtain ⟨rfl, hrest⟩ := cons.inj hout
      rw [reverse_cons, append_assoc, singleton_append]
      exact ih hrest

theorem prior (h : EarliestFirst pre xs [] out) {front rest : List α}
    (hout : out = front ++ x :: rest) (hy : y ∈ xs) (hpre : pre y x) : y ∈ front := by
  have hmem := (h.ready_of_split hout).2 y hy hpre
  rwa [append_nil, mem_reverse] at hmem

theorem unique {other : List α} (h : EarliestFirst pre xs done out)
    (hother : EarliestFirst pre xs done other) : out = other := by
  induction h generalizing other with
  | nil hnone =>
    cases hother with
    | nil _ => rfl
    | cons hxs _ hready _ =>
      refine absurd hready (hnone _ ?_)
      rw [hxs]
      exact mem_append_right _ mem_cons_self
  | cons hxs hfront hready _ ih =>
    cases hother with
    | nil hnone =>
      refine absurd hready (hnone _ ?_)
      rw [hxs]
      exact mem_append_right _ mem_cons_self
    | cons hxs' hfront' hready' hrest' =>
      rcases append_eq_append_iff.mp (hxs.symm.trans hxs') with ⟨mid, hmid, hback⟩ |
        ⟨mid, hmid, hback⟩
      · cases mid with
        | nil =>
          obtain ⟨rfl, -⟩ := cons.inj hback
          rw [ih hrest']
        | cons z mid =>
          obtain ⟨rfl, -⟩ := cons.inj hback
          refine absurd hready (hfront' _ ?_)
          rw [hmid]
          exact mem_append_right _ mem_cons_self
      · cases mid with
        | nil =>
          obtain ⟨rfl, -⟩ := cons.inj hback
          rw [ih hrest']
        | cons z mid =>
          obtain ⟨rfl, -⟩ := cons.inj hback
          refine absurd hready' (hfront _ ?_)
          rw [hmid]
          exact mem_append_right _ mem_cons_self

theorem again_from (h : EarliestFirst pre xs [] out) (hsame : ∀ x, x ∈ out ↔ x ∈ xs)
    {front rest : List α} (hout : out = front ++ rest) :
    EarliestFirst pre out front.reverse rest := by
  induction rest generalizing front with
  | nil =>
    refine .nil fun x hx hready => hready.1 ?_
    rw [append_nil] at hout
    rwa [mem_reverse, ← hout]
  | cons x rest ih =>
    have hready := h.ready_of_split hout
    rw [append_nil] at hready
    refine .cons hout (fun y hy hyready => hyready.1 (mem_reverse.mpr hy))
      ⟨hready.1, fun y hy => hready.2 y ((hsame y).mp hy)⟩ ?_
    have hnext : EarliestFirst pre out (front ++ [x]).reverse rest :=
      ih (by rw [hout, append_assoc, singleton_append])
    rwa [reverse_append, reverse_singleton, singleton_append] at hnext

theorem again (h : EarliestFirst pre xs [] out) (hsame : ∀ x, x ∈ out ↔ x ∈ xs) :
    EarliestFirst pre out [] out :=
  h.again_from hsame (nil_append out).symm

end EarliestFirst

section

variable {β : Type*} (pre' : β → β → Prop) (f : α → β)

theorem Ready.map_iff (hinj : ∀ x ∈ xs, ∀ y ∈ xs, f x = f y → x = y)
    (hpre : ∀ x ∈ xs, ∀ y ∈ xs, pre' (f y) (f x) ↔ pre y x) (hdone : done ⊆ xs) (hx : x ∈ xs) :
    Ready pre' (xs.map f) (done.map f) (f x) ↔ Ready pre xs done x := by
  have hmem : ∀ y ∈ xs, f y ∈ done.map f ↔ y ∈ done := fun y hy =>
    ⟨fun h => by
      obtain ⟨z, hz, heq⟩ := mem_map.mp h
      exact hinj z (hdone hz) y hy heq ▸ hz, mem_map_of_mem⟩
  rw [Ready, Ready, hmem x hx, forall_mem_map]
  exact and_congr_right fun _ => forall₂_congr fun y hy => by rw [hpre x hx y hy, hmem y hy]

theorem EarliestFirst.map (hinj : ∀ x ∈ xs, ∀ y ∈ xs, f x = f y → x = y)
    (hpre : ∀ x ∈ xs, ∀ y ∈ xs, pre' (f y) (f x) ↔ pre y x) (hdone : done ⊆ xs)
    (h : EarliestFirst pre xs done out) :
    EarliestFirst pre' (xs.map f) (done.map f) (out.map f) := by
  induction h with
  | nil hnone =>
    refine .nil (forall_mem_map.mpr fun x hx => ?_)
    rw [Ready.map_iff pre' f hinj hpre hdone hx]
    exact hnone x hx
  | cons hxs hfront hready _ ih =>
    have hin : ∀ z ∈ _, z ∈ xs := fun z hz => by
      rw [hxs]
      exact hz
    have hx := hin _ (mem_append_right _ mem_cons_self)
    have hsplit := congrArg (List.map f) hxs
    rw [map_append, map_cons] at hsplit
    refine .cons hsplit (forall_mem_map.mpr fun y hy => ?_) ((Ready.map_iff pre' f hinj hpre hdone hx).mpr hready)
      (ih (cons_subset.mpr ⟨hx, hdone⟩))
    rw [Ready.map_iff pre' f hinj hpre hdone (hin y (mem_append_left _ hy))]
    exact hfront y hy

end

section

variable (near : α → α → Prop)

theorem ready_iff_of_transGen (hnear : ∀ x ∈ xs, ∀ y ∈ xs, pre y x ↔
      Relation.TransGen (fun y x => y ∈ xs ∧ x ∈ xs ∧ near y x) y x)
    (hdone : Settled near xs done) (hx : x ∈ xs) :
    Ready near xs done x ↔ Ready pre xs done x := by
  refine and_congr_right fun _ => ⟨fun h y hy hpre => ?_, fun h y hy hyx =>
    h y hy ((hnear x hx y hy).mpr (.single ⟨hy, hx, hyx⟩))⟩
  have hback : ∀ z, z ∈ done → ∀ y, Relation.ReflTransGen
      (fun y x => y ∈ xs ∧ x ∈ xs ∧ near y x) y z → y ∈ done := by
    intro z hz y hyz
    induction hyz using Relation.ReflTransGen.head_induction_on with
    | refl => exact hz
    | head hstep _ ih => exact hdone _ ih _ hstep.1 hstep.2.2
  obtain ⟨z, hyz, hzx⟩ := Relation.TransGen.tail'_iff.mp ((hnear x hx y hy).mp hpre)
  exact hback z (h z hzx.1 hzx.2.2) y hyz

theorem EarliestFirst.of_near (hnear : ∀ x ∈ xs, ∀ y ∈ xs, pre y x ↔
      Relation.TransGen (fun y x => y ∈ xs ∧ x ∈ xs ∧ near y x) y x) (hdone : Settled near xs done)
    (h : EarliestFirst near xs done out) :
    EarliestFirst pre xs done out := by
  induction h with
  | nil hnone =>
    exact .nil fun x hx hready => hnone x hx ((ready_iff_of_transGen near hnear hdone hx).mpr hready)
  | cons hxs hfront hready _ ih =>
    have hx : ∀ z ∈ _, z ∈ xs := fun z hz => by
      rw [hxs]
      exact hz
    refine .cons hxs (fun y hy hyready => hfront y hy
      ((ready_iff_of_transGen near hnear hdone (hx y (mem_append_left _ hy))).mpr hyready))
      ((ready_iff_of_transGen near hnear hdone
        (hx _ (mem_append_right _ mem_cons_self))).mp hready) (ih (hdone.cons hready))

end

end GitComet.ReadyOrder
