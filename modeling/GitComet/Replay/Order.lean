import GitComet.Replay.CommitGraph

namespace GitComet.Replay
open ReadyOrder List

abbrev CommitId := String

inductive ReplayOrderError where
  | findCommit (spec : CommitId)
  | duplicate (spec : CommitId)
  | traverse (spec : CommitId)
  | cycle
  deriving DecidableEq

-- `e` is what the object database says of a commit that it cannot read.
def ReplayOrderError.text (e : String) : ReplayOrderError → String
  | findCommit spec => "gix find commit " ++ spec ++ ": " ++ e
  | duplicate spec => "duplicate commit in replay order: " ++ spec
  | traverse spec => "gix traverse ancestors of " ++ spec ++ ": " ++ e
  | cycle => "commit graph contains a cycle while ordering replay commits"

variable {α : Type} [DecidableEq α]

def resolveAll (resolve : CommitId → Option α) :
    List CommitId → List α → Except ReplayOrderError (List α)
  | [], objectIds => .ok objectIds
  | id :: ids, objectIds =>
    match resolve id with
    | none => .error (.findCommit id)
    | some objectId =>
      if objectId ∈ objectIds then .error (.duplicate id)
      else resolveAll resolve ids (objectIds ++ [objectId])

def selected (objectIds : List α) (candidate : α) : Option ℕ :=
  if candidate ∈ objectIds then some (objectIds.idxOf candidate) else none

structure Edges where
  children : ℕ → List ℕ
  pendingParents : ℕ → ℕ

def Edges.none : Edges := ⟨fun _ => [], fun _ => 0⟩

def Edges.add (descendantIx : ℕ) (edges : Edges) (ancestorIx : ℕ) : Edges where
  children := Function.update edges.children ancestorIx
    (edges.children ancestorIx ++ [descendantIx])
  pendingParents := Function.update edges.pendingParents descendantIx
    (edges.pendingParents descendantIx + 1)

def discover (g : CommitGraph α) (ids : List CommitId) (objectIds : List α) :
    List α → ℕ → Edges → Except ReplayOrderError Edges
  | [], _, edges => .ok edges
  | descendant :: rest, descendantIx, edges =>
    if descendant ∈ g.objects then
      match nearestSelected g (selected objectIds) descendantIx (g.pushed descendant) [] [] with
      | .none => .error (.traverse (ids.getD descendantIx ""))
      | some direct =>
        discover g ids objectIds rest (descendantIx + 1)
          (direct.foldl (Edges.add descendantIx) edges)
    else .error (.findCommit (ids.getD descendantIx ""))

def release (pendingParents : ℕ → ℕ) (children : List ℕ) : ℕ → ℕ :=
  children.foldl (fun pending child => Function.update pending child (pending child - 1))
    pendingParents

def nextReady (n : ℕ) (emitted : ℕ → Bool) (pendingParents : ℕ → ℕ) : Option ℕ :=
  (range n).find? fun ix => !emitted ix && pendingParents ix == 0

theorem nextReady_waiting {n next : ℕ} {emitted : ℕ → Bool} {pendingParents : ℕ → ℕ}
    (h : nextReady n emitted pendingParents = some next) :
    next < n ∧ emitted next = false ∧ pendingParents next = 0 := by
  have hready := find?_some h
  rw [Bool.and_eq_true, Bool.not_eq_true', beq_iff_eq] at hready
  exact ⟨mem_range.mp (mem_of_find?_eq_some h), hready⟩

theorem waiting_lt {n next : ℕ} {emitted : ℕ → Bool} (hnext : next < n)
    (hwaiting : emitted next = false) :
    ((range n).filter fun ix => !Function.update emitted next true ix).length <
      ((range n).filter fun ix => !emitted ix).length := by
  have hsub : ((range n).filter fun ix => !Function.update emitted next true ix) =
      ((range n).filter fun ix => !emitted ix).filter fun ix => decide (ix ≠ next) := by
    rw [filter_filter]
    refine filter_congr fun ix _ => ?_
    by_cases hix : ix = next
    · simp [hix]
    · simp [hix]
  rw [hsub]
  exact length_filter_lt_length_iff_exists.mpr
    ⟨next, mem_filter.mpr ⟨mem_range.mpr hnext, by rw [hwaiting]; rfl⟩, by simp⟩

def emitReady (n : ℕ) (children : ℕ → List ℕ) (emitted : ℕ → Bool) (pendingParents : ℕ → ℕ) :
    List ℕ :=
  match _hnext : nextReady n emitted pendingParents with
  | none => []
  | some next =>
    next :: emitReady n children (Function.update emitted next true)
      (release pendingParents (children next))
termination_by ((range n).filter fun ix => !emitted ix).length
decreasing_by exact waiting_lt (nextReady_waiting _hnext).1 (nextReady_waiting _hnext).2.1

def topologicallyOrderCommits (g : CommitGraph α) (resolve : CommitId → Option α)
    (ids : List CommitId) : Except ReplayOrderError (List CommitId) := do
  let objectIds ← resolveAll resolve ids []
  let edges ← discover g ids objectIds objectIds 0 Edges.none
  let ordered := (emitReady ids.length edges.children (fun _ => false) edges.pendingParents).map
    fun ix => ids.getD ix ""
  if ordered.length ≠ ids.length then .error .cycle else .ok ordered

end GitComet.Replay

namespace GitComet.Replay
open ReadyOrder

theorem countP_flip {l : List ℕ} {a : ℕ} (q q' : ℕ → Bool) (hl : l.Nodup) (ha : a ∈ l)
    (hq : q a = false) (hq' : q' a) (hsame : ∀ b, b ≠ a → q' b = q b) :
    l.countP q' = l.countP q + 1 := by
  induction l with
  | nil => cases ha
  | cons b l ih =>
    obtain ⟨hb, hl⟩ := List.nodup_cons.mp hl
    rcases List.mem_cons.mp ha with rfl | ha
    · have hrest : l.countP q' = l.countP q :=
        List.countP_congr fun c hc => by rw [hsame c fun heq => hb (heq ▸ hc)]
      rw [List.countP_cons_of_pos hq', List.countP_cons_of_neg (by rw [hq]; simp), hrest]
    · rw [List.countP_cons, List.countP_cons, ih hl ha,
        hsame b fun heq => hb (heq ▸ ha), Nat.add_right_comm]

namespace Edges

structure Counted (n : ℕ) (edges : Edges) : Prop where
  nodup : ∀ a, (edges.children a).Nodup
  inside : ∀ a d, d ∈ edges.children a → a < n ∧ d < n
  counted : ∀ d, edges.pendingParents d =
    (List.range n).countP fun a => decide (d ∈ edges.children a)

variable {n : ℕ} {edges : Edges} {a d : ℕ}

theorem Counted.none : Counted n Edges.none where
  nodup := fun _ => List.nodup_nil
  inside := fun _ _ h => absurd h List.not_mem_nil
  counted := fun _ => by simp [Edges.none]

theorem add_children : (edges.add d a).children =
    Function.update edges.children a (edges.children a ++ [d]) := rfl

theorem add_pendingParents : (edges.add d a).pendingParents =
    Function.update edges.pendingParents d (edges.pendingParents d + 1) := rfl

theorem mem_children_add {other : ℕ} {x : ℕ} :
    x ∈ (edges.add d a).children other ↔ x ∈ edges.children other ∨ other = a ∧ x = d := by
  rw [add_children, Function.update_apply]
  split_ifs with hother
  · rw [List.mem_append, List.mem_singleton, hother]
    simp
  · simp [hother]

theorem Counted.add (h : Counted n edges) (ha : a < n) (hd : d < n)
    (hnew : d ∉ edges.children a) : Counted n (edges.add d a) where
  nodup := fun other => by
    rw [add_children, Function.update_apply]
    split_ifs
    · exact List.nodup_append.mpr ⟨h.nodup a, List.nodup_singleton d, fun x hx y hy heq =>
        hnew (List.mem_singleton.mp hy ▸ heq ▸ hx)⟩
    · exact h.nodup other
  inside := fun other x hx => by
    rcases mem_children_add.mp hx with hx | ⟨rfl, rfl⟩
    · exact h.inside other x hx
    · exact ⟨ha, hd⟩
  counted := fun x => by
    rw [add_pendingParents, Function.update_apply]
    split_ifs with hx
    · rw [h.counted, hx]
      refine (countP_flip _ _ List.nodup_range (List.mem_range.mpr ha) (decide_eq_false hnew)
        (decide_eq_true (mem_children_add.mpr (.inr ⟨rfl, rfl⟩))) fun b hb => ?_).symm
      exact decide_eq_decide.mpr ⟨fun hmem => (mem_children_add.mp hmem).resolve_right
        fun hand => hb hand.1, fun hmem => mem_children_add.mpr (.inl hmem)⟩
    · rw [h.counted]
      refine List.countP_congr fun b _ => ?_
      rw [decide_eq_true_eq, decide_eq_true_eq, mem_children_add]
      exact ⟨.inl, fun hor => hor.resolve_right fun hand => hx hand.2⟩

theorem Counted.foldl_add {direct : List ℕ} (h : Counted n edges) (hd : d < n)
    (hdirect : direct.Nodup) (hinside : ∀ a ∈ direct, a < n ∧ d ∉ edges.children a) :
    Counted n (direct.foldl (Edges.add d) edges) ∧
      ∀ a x, x ∈ (direct.foldl (Edges.add d) edges).children a ↔
        x ∈ edges.children a ∨ a ∈ direct ∧ x = d := by
  induction direct generalizing edges with
  | nil => exact ⟨h, fun a x => by simp⟩
  | cons b direct ih =>
    obtain ⟨hb, hdirect⟩ := List.nodup_cons.mp hdirect
    obtain ⟨hbn, hnew⟩ := hinside b List.mem_cons_self
    obtain ⟨hcounted, hmem⟩ := ih (h.add hbn hd hnew) hdirect fun a ha =>
      ⟨(hinside a (List.mem_cons_of_mem _ ha)).1, fun hchild =>
        (mem_children_add.mp hchild).elim (hinside a (List.mem_cons_of_mem _ ha)).2
          fun hand => hb (hand.1 ▸ ha)⟩
    refine ⟨hcounted, fun a x => ?_⟩
    rw [List.foldl_cons, hmem, mem_children_add, List.mem_cons, or_assoc, ← or_and_right]

end Edges

structure Waiting (n : ℕ) (children : ℕ → List ℕ) (emitted : ℕ → Bool) (pending : ℕ → ℕ)
    (done : List ℕ) : Prop where
  taken : ∀ ix, emitted ix = true ↔ ix ∈ done
  waits : ∀ d, pending d =
    (List.range n).countP fun a => !emitted a && decide (d ∈ children a)

variable {n : ℕ} {children : ℕ → List ℕ} {emitted : ℕ → Bool} {pending : ℕ → ℕ}
  {done : List ℕ} {next : ℕ}

theorem release_apply {released : List ℕ} (hreleased : released.Nodup) (d : ℕ) :
    release pending released d = if d ∈ released then pending d - 1 else pending d := by
  induction released generalizing pending with
  | nil => rw [if_neg List.not_mem_nil]; rfl
  | cons c released ih =>
    obtain ⟨hc, hreleased⟩ := List.nodup_cons.mp hreleased
    rw [release, List.foldl_cons, ← release, ih hreleased, Function.update_apply]
    by_cases hd : d = c
    · rw [if_neg (hd ▸ hc), if_pos hd, if_pos (hd ▸ List.mem_cons_self), hd]
    · simp [hd]

namespace Waiting

theorem ready_iff (h : Waiting n children emitted pending done) (d : ℕ) :
    Ready (fun a d => d ∈ children a) (List.range n) done d ↔
      (!emitted d && pending d == 0) := by
  rw [Ready, Bool.and_eq_true, Bool.not_eq_true', beq_iff_eq, h.waits, List.countP_eq_zero]
  refine and_congr ?_ (forall₂_congr fun a _ => ?_)
  · rw [← h.taken, Bool.not_eq_true]
  · rw [Bool.and_eq_true, Bool.not_eq_true', decide_eq_true_eq, not_and', Bool.not_eq_false,
      h.taken]

theorem emit (h : Waiting n children emitted pending done) (hnodup : (children next).Nodup)
    (hnext : next < n) (hwaiting : emitted next = false) :
    Waiting n children (Function.update emitted next true) (release pending (children next))
      (next :: done) where
  taken := fun ix => by
    rw [Function.update_apply, List.mem_cons]
    split_ifs with hix
    · simp [hix]
    · rw [h.taken]
      simp [hix]
  waits := fun d => by
    rw [release_apply hnodup, h.waits]
    split_ifs with hd
    · have hflip := countP_flip
        (fun a => !Function.update emitted next true a && decide (d ∈ children a))
        (fun a => !emitted a && decide (d ∈ children a)) List.nodup_range
        (List.mem_range.mpr hnext) (by simp) (by simp [hwaiting, hd])
        (fun b hb => by rw [Function.update_of_ne hb])
      rw [hflip, Nat.add_sub_cancel]
    · refine List.countP_congr fun a _ => ?_
      by_cases ha : a = next
      · simp [ha, hd]
      · rw [Function.update_of_ne ha]

end Waiting

theorem emitReady_earliestFirst (hnodup : ∀ a, (children a).Nodup)
    (h : Waiting n children emitted pending done) :
    EarliestFirst (fun a d => d ∈ children a) (List.range n) done
      (emitReady n children emitted pending) := by
  induction emitted, pending using emitReady.induct n children generalizing done with
  | case1 emitted pending hnone =>
    rw [emitReady]
    split
    · refine .nil fun x hx => ?_
      rw [h.ready_iff]
      exact List.find?_eq_none.mp hnone x hx
    · next hsome =>
      rw [hnone] at hsome
      cases hsome
  | case2 emitted pending next hnext ih =>
    rw [emitReady]
    split
    · next hnone =>
      rw [hnext] at hnone
      cases hnone
    · next other hother =>
      obtain rfl := Option.some.inj (hnext.symm.trans hother)
      obtain ⟨hlt, hwaiting, -⟩ := nextReady_waiting hnext
      obtain ⟨hready, front, back, hrange, hfront⟩ := List.find?_eq_some_iff_append.mp hnext
      refine .cons hrange (fun y hy => ?_) ((h.ready_iff next).mpr hready)
        (ih (h.emit (hnodup next) hlt hwaiting))
      rw [h.ready_iff]
      simpa only [Bool.not_eq_true', Bool.not_eq_true] using hfront y hy

end GitComet.Replay
