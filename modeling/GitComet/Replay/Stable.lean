import GitComet.Replay.Order

namespace GitComet.Replay
open List ReadyOrder Option

variable {α : Type} [DecidableEq α] {g : CommitGraph α} {objectIds : List α}

theorem selected_eq_some (hnodup : objectIds.Nodup) {o : α} {ix : ℕ} :
    selected objectIds o = some ix ↔ objectIds[ix]? = some o := by
  rw [selected]
  split_ifs with hmem
  · rw [some_inj]
    constructor
    · rintro rfl
      rw [getElem?_eq_getElem (List.idxOf_lt_length_iff.mpr hmem), getElem_idxOf]
    · intro hix
      obtain ⟨hlt, rfl⟩ := List.getElem?_eq_some_iff.mp hix
      exact hnodup.idxOf_getElem ix hlt
  · exact ⟨fun h => (by cases h), fun hix => absurd (mem_of_getElem? hix) hmem⟩

def Nearest (g : CommitGraph α) (objectIds : List α) (c : α) (ix : ℕ) : Prop :=
  ∃ v, Reach g (selected objectIds) c v ∧ selected objectIds v = some ix

def Near (g : CommitGraph α) (objectIds : List α) (a d : ℕ) : Prop :=
  a ≠ d ∧ ∃ c, objectIds[d]? = some c ∧ Nearest g objectIds c a

def Follows (g : CommitGraph α) (objectIds : List α) (a d : ℕ) : Prop :=
  ∃ p c, objectIds[a]? = some p ∧ objectIds[d]? = some c ∧ g.Ancestor p c

theorem Near.lt (hnodup : objectIds.Nodup) {a d : ℕ} (h : Near g objectIds a d) :
    a < objectIds.length ∧ d < objectIds.length := by
  obtain ⟨-, c, hc, v, -, hv⟩ := h
  exact ⟨(List.getElem?_eq_some_iff.mp ((selected_eq_some hnodup).mp hv)).1,
    (List.getElem?_eq_some_iff.mp hc).1⟩

theorem Near.follows (hnodup : objectIds.Nodup) (hstored : ∀ o ∈ objectIds, o ∈ g.objects)
    {a d : ℕ} (h : Near g objectIds a d) : Follows g objectIds a d := by
  obtain ⟨-, c, hc, v, hreach, hv⟩ := h
  exact ⟨v, c, (selected_eq_some hnodup).mp hv, hc,
    hreach.ancestor (hstored c (mem_of_getElem? hc))⟩

omit [DecidableEq α] in
theorem Follows.trans {a b d : ℕ} (hab : Follows g objectIds a b) (hbd : Follows g objectIds b d) :
    Follows g objectIds a d := by
  obtain ⟨p, c, hp, hc, hpc⟩ := hab
  obtain ⟨c', e, hc', he, hce⟩ := hbd
  obtain rfl := some.inj (hc.symm.trans hc')
  exact ⟨p, e, hp, he, hpc.trans hce⟩

omit [DecidableEq α] in
theorem follows_wellFounded : WellFounded (Follows g objectIds) := by
  have hsome : WellFounded fun a d : Option α => ∃ p c, a = some p ∧ d = some c ∧ g.Ancestor p c := by
    refine ⟨fun d => ?_⟩
    have hacc : ∀ c, Acc (fun a d : Option α => ∃ p c, a = some p ∧ d = some c ∧ g.Ancestor p c)
        (some c) := by
      intro c
      induction (CommitGraph.ancestor_wellFounded (g := g)).apply c with
      | intro c _ ih =>
        refine ⟨_, ?_⟩
        rintro a ⟨p, c', rfl, hc, hp⟩
        cases hc
        exact ih p hp
    cases d with
    | none => exact ⟨_, fun a ⟨p, c, _, hc, _⟩ => by cases hc⟩
    | some c => exact hacc c
  exact InvImage.wf (fun ix => objectIds[ix]?) hsome

omit [DecidableEq α] in
theorem Reach.prepend {sel : α → Option ℕ} {p c v : α} (hp : p ∈ g.parents c)
    (hpass : sel p = none) (h : Reach g sel p v) : Reach g sel c v := by
  induction h with
  | parent hv => exact .pass (.parent hp) hpass hv
  | pass _ hu hv ih => exact .pass ih hu hv

theorem nearest_of_ancestor (hnodup : objectIds.Nodup) {a : ℕ} {p c : α}
    (ha : objectIds[a]? = some p) (h : g.Ancestor p c) :
    ∃ ix, Nearest g objectIds c ix ∧ (ix = a ∨ Relation.TransGen (Near g objectIds) a ix) := by
  have hsel : selected objectIds p = some a := (selected_eq_some hnodup).mpr ha
  induction h with
  | single h => exact ⟨a, ⟨p, .parent h.2, hsel⟩, .inl rfl⟩
  | @tail q c hq hc ih =>
    obtain ⟨ix, ⟨v, hreach, hv⟩, hix⟩ := ih
    cases hsome : selected objectIds q with
    | none => exact ⟨ix, ⟨v, hreach.prepend hc.2 hsome, hv⟩, hix⟩
    | some qx =>
      have hqx := (selected_eq_some hnodup).mp hsome
      have hne : ix ≠ qx := by
        rintro rfl
        have hsame := some.inj (((selected_eq_some hnodup).mp hv).symm.trans hqx)
        have hself := hreach.ancestor (CommitGraph.Ancestor.mem_right hq)
        rw [hsame] at hself
        exact g.acyclic q hself
      have hnear : Near g objectIds ix qx := ⟨hne, q, hqx, v, hreach, hv⟩
      refine ⟨qx, ⟨q, .parent hc.2, hsome⟩, .inr ?_⟩
      rcases hix with rfl | hix
      · exact .single hnear
      · exact hix.tail hnear

theorem follows_iff_transGen (hnodup : objectIds.Nodup)
    (hstored : ∀ o ∈ objectIds, o ∈ g.objects) (a d : ℕ) :
    Follows g objectIds a d ↔ Relation.TransGen (Near g objectIds) a d := by
  constructor
  · rintro ⟨p, c, hp, hc, hpc⟩
    obtain ⟨ix, hnearest, hix⟩ := nearest_of_ancestor hnodup hp hpc
    have hne : ix ≠ d := by
      rintro rfl
      obtain ⟨v, hreach, hv⟩ := hnearest
      have hsame := some.inj (((selected_eq_some hnodup).mp hv).symm.trans hc)
      have hself := hreach.ancestor (hstored c (mem_of_getElem? hc))
      rw [hsame] at hself
      exact g.acyclic c hself
    have hnear : Near g objectIds ix d := ⟨hne, c, hc, hnearest⟩
    rcases hix with rfl | hix
    · exact .single hnear
    · exact hix.tail hnear
  · intro h
    induction h with
    | single h => exact h.follows hnodup hstored
    | tail _ h ih => exact ih.trans (h.follows hnodup hstored)

theorem discover_near (ids : List CommitId) (hnodup : objectIds.Nodup)
    (hstored : ∀ o ∈ objectIds, o ∈ g.objects) {rest : List α} {ix : ℕ} {edges : Edges}
    (hrest : objectIds.drop ix = rest) (hcounted : edges.Counted objectIds.length)
    (hedges : ∀ a d, d ∈ edges.children a ↔ d < ix ∧ Near g objectIds a d) :
    ∃ found, discover g ids objectIds rest ix edges = .ok found ∧
      found.Counted objectIds.length ∧ ∀ a d, d ∈ found.children a ↔ Near g objectIds a d := by
  induction rest generalizing ix edges with
  | nil =>
    refine ⟨edges, rfl, hcounted, fun a d => ?_⟩
    rw [hedges]
    refine and_iff_right_of_imp fun hnear => ?_
    exact Nat.lt_of_lt_of_le (hnear.lt hnodup).2 (drop_eq_nil_iff.mp hrest)
  | cons descendant rest ih =>
    have hget : objectIds[ix]? = some descendant := by
      rw [← head?_drop, hrest, head?_cons]
    have hlt : ix < objectIds.length := (List.getElem?_eq_some_iff.mp hget).1
    have hmem : descendant ∈ g.objects := hstored _ (mem_of_getElem? hget)
    obtain ⟨direct, hdirect, hdnodup, hdmem⟩ :=
      nearestSelected_of_walking hmem
        (Walking.start ix : Walking g (selected objectIds) descendant ix _ [] [])
    have hnear : ∀ a, a ∈ direct ↔ Near g objectIds a ix := fun a => by
      rw [hdmem, Near]
      refine and_congr_right fun _ => ⟨fun h => ⟨descendant, hget, h⟩, ?_⟩
      rintro ⟨c, hc, h⟩
      obtain rfl := some.inj (hget.symm.trans hc)
      exact h
    obtain ⟨hadded, hchildren⟩ := hcounted.foldl_add hlt hdnodup fun a ha =>
      ⟨(((hnear a).mp ha).lt hnodup).1, fun hold => Nat.lt_irrefl _ ((hedges a ix).mp hold).1⟩
    rw [discover, if_pos hmem, hdirect]
    refine ih ?_ hadded fun a d => ?_
    · rw [← tail_drop, hrest, tail_cons]
    · rw [hchildren, hedges, hnear, Nat.lt_succ_iff_lt_or_eq]
      constructor
      · rintro (⟨hd, h⟩ | ⟨h, rfl⟩)
        · exact ⟨.inl hd, h⟩
        · exact ⟨.inr rfl, h⟩
      · rintro ⟨hd | rfl, h⟩
        · exact .inl ⟨hd, h⟩
        · exact .inr ⟨h, rfl⟩

theorem resolveAll_eq {resolve : CommitId → Option α} {ids : List CommitId} (found : List α)
    (hresolve : ids.map resolve = objectIds.map some) :
    ((found ++ objectIds).Nodup → resolveAll resolve ids found = .ok (found ++ objectIds)) ∧
      (found.Nodup → ¬(found ++ objectIds).Nodup →
        ∃ spec ∈ ids, resolveAll resolve ids found = .error (.duplicate spec)) := by
  induction ids generalizing found objectIds with
  | nil =>
    obtain rfl := map_eq_nil_iff.mp hresolve.symm
    rw [append_nil]
    exact ⟨fun _ => rfl, fun h hnot => absurd h hnot⟩
  | cons id ids ih =>
    cases objectIds with
    | nil => cases hresolve
    | cons o objectIds =>
      obtain ⟨hid, hrest⟩ := cons.inj hresolve
      rw [resolveAll, hid]
      dsimp only
      split_ifs with hmem
      · refine ⟨fun hnodup => absurd hmem ?_, fun _ _ => ⟨id, mem_cons_self, rfl⟩⟩
        exact fun hmem => (nodup_append.mp hnodup).2.2 o hmem o mem_cons_self rfl
      · obtain ⟨hok, herror⟩ := ih (found ++ [o]) hrest
        rw [append_assoc, singleton_append] at hok herror
        refine ⟨hok, fun hfound hnot => ?_⟩
        obtain ⟨spec, hspec, heq⟩ := herror (nodup_append.mpr ⟨hfound,
          nodup_singleton o, fun x hx y hy heq => hmem (mem_singleton.mp hy ▸ heq ▸ hx)⟩)
          hnot
        exact ⟨spec, mem_cons_of_mem _ hspec, heq⟩

def Precedes (g : CommitGraph α) (resolve : CommitId → Option α) (a d : CommitId) : Prop :=
  ∃ p c, resolve a = some p ∧ resolve d = some c ∧ g.Ancestor p c

section

variable {resolve : CommitId → Option α} {ids : List CommitId}

omit [DecidableEq α] in
theorem exists_objectIds (hresolve : ∀ id ∈ ids, ∃ o ∈ g.objects, resolve id = some o) :
    ∃ objectIds : List α, ids.map resolve = objectIds.map some ∧ ∀ o ∈ objectIds, o ∈ g.objects := by
  induction ids with
  | nil => exact ⟨[], rfl, fun o ho => absurd ho not_mem_nil⟩
  | cons id ids ih =>
    obtain ⟨o, ho, hid⟩ := hresolve id mem_cons_self
    obtain ⟨objectIds, hmap, hstored⟩ := ih fun id hmem => hresolve id (mem_cons_of_mem _ hmem)
    exact ⟨o :: objectIds, by rw [map_cons, map_cons, hid, hmap],
      forall_mem_cons.mpr ⟨ho, hstored⟩⟩

theorem map_getD_range : (range ids.length).map (fun ix => ids.getD ix "") = ids := by
  refine ext_getElem (by simp) fun ix h _ => ?_
  rw [length_map, length_range] at h
  simp [h]

theorem earliest_indexes (hmap : ids.map resolve = objectIds.map some)
    (hstored : ∀ o ∈ objectIds, o ∈ g.objects) (hnodup : objectIds.Nodup) :
    ∃ found, discover g ids objectIds objectIds 0 Edges.none = .ok found ∧
      EarliestFirst (Follows g objectIds) (range ids.length) []
        (emitReady ids.length found.children (fun _ => false) found.pendingParents) := by
  have hlength : ids.length = objectIds.length := by
    rw [← length_map, hmap, length_map]
  obtain ⟨found, hfound, hcounted, hnear⟩ := discover_near ids hnodup hstored
    (drop_zero) .none fun a d => by
      simp [Edges.none]
  refine ⟨found, hfound, EarliestFirst.of_near (fun a d => d ∈ found.children a) ?_ ?_
    (emitReady_earliestFirst hcounted.nodup ⟨fun ix => by simp, fun d => ?_⟩)⟩
  · intro x hx y hy
    rw [follows_iff_transGen hnodup hstored]
    have hsame : ∀ a d, Near g objectIds a d ↔ a ∈ range ids.length ∧
        d ∈ range ids.length ∧ d ∈ found.children a := fun a d => by
      rw [hnear, mem_range, mem_range, hlength, ← and_assoc]
      exact (and_iff_right_of_imp fun h => h.lt hnodup).symm
    rw [show Near g objectIds = _ from funext fun a => funext fun d => propext (hsame a d)]
  · exact fun x hx => absurd hx not_mem_nil
  · rw [hcounted.counted, hlength]
    simp

theorem topologicallyOrderCommits_earliest
    (hresolve : ∀ id ∈ ids, ∃ o ∈ g.objects, resolve id = some o)
    (hdistinct : (ids.map resolve).Nodup) :
    ∃ ordered, topologicallyOrderCommits g resolve ids = .ok ordered ∧
      EarliestFirst (Precedes g resolve) ids [] ordered ∧ ordered.Perm ids := by
  obtain ⟨objectIds, hmap, hstored⟩ := exists_objectIds hresolve
  have hnodup : objectIds.Nodup := by
    rw [hmap] at hdistinct
    exact hdistinct.of_map _
  have hids : ids.Nodup := hdistinct.of_map _
  have hat : ∀ ix (hix : ix < ids.length), ids.getD ix "" = ids[ix] := fun ix hix => by
    simp [hix]
  have hget : ∀ ix, ix < ids.length → resolve (ids.getD ix "") = objectIds[ix]? := fun ix hix => by
    have heq := congrArg (·[ix]?) hmap
    simp only [getElem?_map, getElem?_eq_getElem hix, map_some] at heq
    rw [hat ix hix]
    cases hobject : objectIds[ix]? with
    | none =>
      rw [hobject] at heq
      cases heq
    | some o =>
      rw [hobject] at heq
      exact some.inj heq
  obtain ⟨found, hfound, hearliest⟩ := earliest_indexes hmap hstored hnodup
  have hperm := hearliest.perm follows_wellFounded nodup_range
  have horder := hearliest.map (Precedes g resolve) (fun ix => ids.getD ix "")
    (fun x hx y hy heq => ?_) (fun x hx y hy => ?_) (nil_subset _)
  · refine ⟨_, ?_, by rwa [map_getD_range] at horder, ?_⟩
    · rw [topologicallyOrderCommits, (resolveAll_eq [] hmap).1 hnodup]
      dsimp only [bind, Except.bind, nil_append]
      rw [hfound]
      dsimp only [bind, Except.bind]
      rw [if_neg]
      rw [length_map, hperm.length_eq, length_range]
      exact not_not.mpr rfl
    · have hids := hperm.map fun ix => ids.getD ix ""
      rwa [map_getD_range] at hids
  · rw [mem_range] at hx hy
    rw [hat x hx, hat y hy] at heq
    exact (hids.getElem_inj_iff).mp heq
  · rw [mem_range] at hx hy
    rw [Precedes, Follows, hget x hx, hget y hy]

end

theorem replay_order_is_stable (g : CommitGraph α) (resolve : CommitId → Option α)
    (ids : List CommitId) (hresolve : ∀ id ∈ ids, ∃ o ∈ g.objects, resolve id = some o) :
    (¬(ids.map resolve).Nodup →
      ∃ spec ∈ ids, topologicallyOrderCommits g resolve ids = .error (.duplicate spec)) ∧
    ((ids.map resolve).Nodup → ∃ ordered, topologicallyOrderCommits g resolve ids = .ok ordered ∧
        ordered.Perm ids ∧ (∀ front d rest, ordered = front ++ d :: rest →
          ∀ a ∈ ids, Precedes g resolve a d → a ∈ front) ∧
        EarliestFirst (Precedes g resolve) ids [] ordered ∧
        (∀ other, EarliestFirst (Precedes g resolve) ids [] other → other = ordered) ∧
        topologicallyOrderCommits g resolve ordered = .ok ordered) := by
  refine ⟨fun hsame => ?_, fun hdistinct => ?_⟩
  · obtain ⟨objectIds, hmap, -⟩ := exists_objectIds hresolve
    have hnot : ¬objectIds.Nodup := fun hnodup =>
      hsame (hmap ▸ hnodup.map (some_injective α))
    obtain ⟨spec, hspec, herror⟩ := (resolveAll_eq [] hmap).2 nodup_nil hnot
    exact ⟨spec, hspec, by rw [topologicallyOrderCommits, herror]; rfl⟩
  · obtain ⟨ordered, hok, hearliest, hperm⟩ :=
      topologicallyOrderCommits_earliest hresolve hdistinct
    have hsame : ∀ id, id ∈ ordered ↔ id ∈ ids := fun id => hperm.mem_iff
    have hordered : ∀ id ∈ ordered, ∃ o ∈ g.objects, resolve id = some o :=
      fun id hid => hresolve id ((hsame id).mp hid)
    obtain ⟨again, hagain, hearliest', -⟩ := topologicallyOrderCommits_earliest hordered
      ((hperm.map resolve).nodup_iff.mpr hdistinct)
    refine ⟨ordered, hok, hperm, fun front d rest hsplit a ha => hearliest.prior hsplit ha,
      hearliest, fun other hother => hother.unique hearliest, ?_⟩
    rw [hagain, hearliest'.unique (hearliest.again hsame)]

def lineage : CommitGraph ℕ where
  objects := [0, 1, 2, 3]
  parents := fun c => if c = 0 then [] else [c - 1]
  closed := by decide
  acyclic := by
    have hlt : ∀ p c, Relation.TransGen
        (fun p c => c ∈ [0, 1, 2, 3] ∧ p ∈ if c = 0 then [] else [c - 1]) p c → p < c := by
      intro p c h
      have hstep : ∀ p c, (c ∈ [0, 1, 2, 3] ∧ p ∈ if c = 0 then [] else [c - 1]) → p < c := by
        rintro p c ⟨-, hp⟩
        split_ifs at hp with hc
        · cases hp
        · rw [mem_singleton.mp hp]
          omega
      induction h with
      | single h => exact hstep _ _ h
      | tail _ h ih => exact ih.trans (hstep _ _ h)
    exact fun c h => Nat.lt_irrefl c (hlt c c h)

def lineageIds (id : CommitId) : Option ℕ :=
  if id = "root" then some 0 else if id = "middle" then some 2 else if id = "tip" then some 3 else none

theorem replay_order_is_stable_lineage :
    ∃ ordered, topologicallyOrderCommits lineage lineageIds ["tip", "root", "middle"] = .ok ordered ∧
      ordered.Perm ["tip", "root", "middle"] := by
  obtain ⟨ordered, hok, hperm, -⟩ := (replay_order_is_stable lineage lineageIds
    ["tip", "root", "middle"] (by decide)).2 (by decide)
  exact ⟨ordered, hok, hperm⟩

end GitComet.Replay
