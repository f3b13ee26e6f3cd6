import GitComet.Store.Squash
import Mathlib.Data.Set.Card

namespace GitComet.History
open Store List

def distanceFrom (target : CommitId) : List Commit → CommitId → ℕ → Option ℕ
  | [], current, count => if current = target then some count else none
  | commit :: commits, current, count =>
    if current = target then some count
    else if commit.id = current then
      match commit.parentIds with
      | [parent] => distanceFrom target commits parent (count + 1)
      | _ => none
    else distanceFrom target commits current count

def linearFirstParentDistance (commits : List Commit) (head target : CommitId) : Option ℕ :=
  distanceFrom target commits head 0

def Reaches (parents : CommitId → List CommitId) : CommitId → CommitId → Prop :=
  Relation.ReflTransGen fun child parent => parent ∈ parents child

def ParentsFall (parents : CommitId → List CommitId) : Prop :=
  ∀ id, ¬Relation.TransGen (fun child parent => parent ∈ parents child) id id

structure WalkPage (parents : CommitId → List CommitId) (commits : List Commit) : Prop where
  rows : ∀ commit ∈ commits, parents commit.id = commit.parentIds
  distinct : (commits.map Commit.id).Nodup

def onlyReachableFrom (parents : CommitId → List CommitId) (head target : CommitId) :
    Set CommitId :=
  {id | Reaches parents head id ∧ ¬Reaches parents target id}

inductive LinearChain (target : CommitId) : CommitId → List Commit → Prop
  | done : LinearChain target target []
  | step {commit : Commit} {parent : CommitId} {chain : List Commit}
      (hparent : commit.parentIds = [parent]) (h : LinearChain target parent chain) :
      LinearChain target commit.id (commit :: chain)

section
variable {parents : CommitId → List CommitId} {commits chain : List Commit}
  {head target parent : CommitId}

theorem distanceFrom_some {count n : ℕ} (h : distanceFrom target commits head count = some n) :
    ∃ chain, LinearChain target head chain ∧ chain ⊆ commits ∧ n = count + chain.length := by
  induction commits generalizing head count with
  | nil =>
    rw [distanceFrom] at h
    split_ifs at h with htarget
    cases h
    exact ⟨[], htarget ▸ .done, Subset.refl _, rfl⟩
  | cons commit commits ih =>
    rw [distanceFrom] at h
    split_ifs at h with htarget hrow
    · cases h
      exact ⟨[], htarget ▸ .done, nil_subset _, rfl⟩
    · cases hparents : commit.parentIds with
      | nil =>
        rw [hparents] at h
        cases h
      | cons parent others =>
        cases others with
        | nil =>
          rw [hparents] at h
          obtain ⟨chain, hchain, hsub, rfl⟩ := ih h
          refine ⟨commit :: chain, hrow ▸ .step hparents hchain, cons_subset_cons _ hsub, ?_⟩
          rw [length_cons, Nat.add_assoc, Nat.add_comm 1]
        | cons second others =>
          rw [hparents] at h
          cases h
    · obtain ⟨chain, hchain, hsub, hlen⟩ := ih h
      exact ⟨chain, hchain, subset_cons_of_subset _ hsub, hlen⟩

theorem LinearChain.reaches (hrows : ∀ commit ∈ chain, parents commit.id = commit.parentIds)
    (h : LinearChain target head chain) : Reaches parents head target := by
  induction h with
  | done => exact .refl
  | step hparent _ ih =>
    rw [forall_mem_cons] at hrows
    refine .head ?_ (ih hrows.2)
    rw [hrows.1, hparent]
    exact mem_singleton_self _

theorem reaches_only_parent (h : parents head = [parent]) {id : CommitId} :
    Reaches parents head id ↔ id = head ∨ Reaches parents parent id := by
  constructor
  · intro hreach
    rcases Relation.ReflTransGen.cases_head hreach with rfl | ⟨next, hnext, hrest⟩
    · exact .inl rfl
    · rw [h, mem_singleton] at hnext
      exact .inr (hnext ▸ hrest)
  · rintro (rfl | hreach)
    · exact .refl
    · exact .head (h ▸ mem_singleton_self _) hreach

theorem onlyReachable_step (hacyclic : ParentsFall parents) (h : parents head = [parent])
    (htarget : Reaches parents parent target) :
    onlyReachableFrom parents head target = insert head (onlyReachableFrom parents parent target) ∧
      head ∉ onlyReachableFrom parents parent target := by
  have hback : ∀ id, Reaches parents parent id → ¬Reaches parents id head := fun id hid hcycle =>
    hacyclic head (.head' (h ▸ mem_singleton_self _) (hid.trans hcycle))
  refine ⟨Set.ext fun id => ?_, fun hmem => hback parent .refl hmem.1⟩
  rw [Set.mem_insert_iff, onlyReachableFrom, Set.mem_ofPred_eq, reaches_only_parent h]
  constructor
  · rintro ⟨rfl | hid, hnot⟩
    · exact .inl rfl
    · exact .inr ⟨hid, hnot⟩
  · rintro (rfl | ⟨hid, hnot⟩)
    · exact ⟨.inl rfl, hback target htarget⟩
    · exact ⟨.inr hid, hnot⟩

theorem LinearChain.encard (hacyclic : ParentsFall parents)
    (hrows : ∀ commit ∈ chain, parents commit.id = commit.parentIds)
    (h : LinearChain target head chain) :
    (onlyReachableFrom parents head target).encard = chain.length := by
  induction h with
  | done =>
    have hnone : onlyReachableFrom parents target target = ∅ :=
      Set.eq_empty_of_forall_notMem fun id hid => hid.2 hid.1
    rw [hnone, Set.encard_empty]
    rfl
  | step hparent hchain ih =>
    rw [forall_mem_cons] at hrows
    obtain ⟨hset, hfresh⟩ :=
      onlyReachable_step hacyclic (hrows.1.trans hparent) (hchain.reaches hrows.2)
    rw [hset, Set.encard_insert_of_notMem hfresh, ih hrows.2, length_cons, Nat.cast_add,
      Nat.cast_one]

theorem distanceFrom_chain (hdistinct : (commits.map Commit.id).Nodup)
    (h : LinearChain target head chain) (hsub : chain.Sublist commits) (count : ℕ) :
    (distanceFrom target commits head count).isSome := by
  induction commits generalizing head chain count with
  | nil =>
    obtain rfl := sublist_nil.mp hsub
    cases h
    rw [distanceFrom, if_pos rfl, Option.isSome_some]
  | cons row commits ih =>
    rw [map_cons, nodup_cons] at hdistinct
    rw [distanceFrom]
    split_ifs with htarget hrow
    · rfl
    · cases h with
      | done => exact absurd rfl htarget
      | @step commit parent chain hparent hchain =>
        have hcommit : commit = row ∧ chain.Sublist commits := by
          cases hsub with
          | cons _ hsub =>
            refine absurd ?_ hdistinct.1
            rw [hrow]
            exact mem_map_of_mem (hsub.subset mem_cons_self)
          | cons_cons _ hsub => exact ⟨rfl, hsub⟩
        obtain ⟨rfl, hrest⟩ := hcommit
        rw [hparent]
        exact ih hdistinct.2 hchain hrest (count + 1)
    · refine ih hdistinct.2 h ?_ count
      cases h with
      | done => exact absurd rfl htarget
      | step hparent hchain =>
        cases hsub with
        | cons _ hsub => exact hsub
        | cons_cons _ _ => exact absurd rfl hrow

end

theorem linear_distance_exact {parents : CommitId → List CommitId} {commits : List Commit}
    (hacyclic : ParentsFall parents) (hpage : WalkPage parents commits) (head target : CommitId) :
    (∀ n, linearFirstParentDistance commits head target = some n →
      (onlyReachableFrom parents head target).encard = n) ∧
      ∀ chain, LinearChain target head chain → chain.Sublist commits →
        (linearFirstParentDistance commits head target).isSome := by
  refine ⟨fun n hn => ?_, fun chain hchain hsub =>
    distanceFrom_chain hpage.distinct hchain hsub 0⟩
  obtain ⟨chain, hchain, hsub, hlen⟩ := distanceFrom_some hn
  rw [Nat.zero_add] at hlen
  rw [hlen]
  exact hchain.encard hacyclic fun commit hcommit => hpage.rows commit (hsub hcommit)

def twoRows : List Commit := [⟨['b'], [['a']]⟩, ⟨['a'], []⟩]

def twoRowsParents (id : CommitId) : List CommitId := if id = ['b'] then [['a']] else []

theorem twoRows_acyclic : ParentsFall twoRowsParents := by
  have hstep : ∀ {child parent : CommitId}, parent ∈ twoRowsParents child →
      child = ['b'] ∧ parent = ['a'] := by
    intro child parent h
    rw [twoRowsParents] at h
    split_ifs at h with hchild
    · exact ⟨hchild, mem_singleton.mp h⟩
    · cases h
  intro id h
  obtain ⟨next, hfirst, hrest⟩ := Relation.TransGen.head'_iff.mp h
  obtain ⟨rfl, rfl⟩ := hstep hfirst
  rcases Relation.ReflTransGen.cases_head hrest with heq | ⟨other, hother, -⟩
  · cases heq
  · cases (hstep hother).1

theorem twoRows_page : WalkPage twoRowsParents twoRows where
  rows := by decide
  distinct := by decide

theorem two_rows_distance : (onlyReachableFrom twoRowsParents ['b'] ['a']).encard = 1 :=
  (linear_distance_exact twoRows_acyclic twoRows_page ['b'] ['a']).1 1 (by decide)

end GitComet.History
