import GitComet.Selection.Session

namespace GitComet.Selection
open List Loading Nat

def rotateLeft {α : Type} : List α → List α
  | [] => []
  | x :: xs => xs ++ [x]

def rotateRight {α : Type} (xs : List α) : List α := xs.getLast?.toList ++ xs.dropLast

def onRange {α : Type} (f : List α → List α) (start stop : ℕ) (xs : List α) : List α :=
  xs.take start ++ (f ((xs.take stop).drop start) ++ xs.drop stop)

def findTabs (repoId : RepoId) (insertBefore : Option RepoId) :
    ℕ → Option ℕ → Option ℕ → List RepoState → Option ℕ × Option ℕ
  | _, fromIx, beforeIx, [] => (fromIx, beforeIx)
  | ix, fromIx, beforeIx, repo :: repos =>
    let fromIx := if repo.id = repoId then some ix else fromIx
    let beforeIx := if insertBefore = some repo.id then some ix else beforeIx
    if fromIx.isSome && (insertBefore.isNone || beforeIx.isSome) then (fromIx, beforeIx)
    else findTabs repoId insertBefore (ix + 1) fromIx beforeIx repos

def moveTab (fromIx : ℕ) (beforeIx : Option ℕ) (repos : List RepoState) : List RepoState :=
  match beforeIx with
  | some beforeIx =>
    if fromIx + 1 = beforeIx then repos
    else if fromIx < beforeIx then onRange rotateLeft fromIx beforeIx repos
    else onRange rotateRight beforeIx (fromIx + 1) repos
  | none =>
    if fromIx + 1 = repos.length then repos else onRange rotateLeft fromIx repos.length repos

namespace AppState

def fillReorderRepoTabsInline (state : AppState) (repoId : RepoId)
    (insertBefore : Option RepoId) : AppState :=
  if state.repos.length ≤ 1 then state
  else if insertBefore = some repoId then state
  else
    let found := findTabs repoId insertBefore 0 none none state.repos
    match found.1 with
    | none => state
    | some fromIx => { state with repos := moveTab fromIx found.2 state.repos }

def tabs (state : AppState) : List RepoId := state.repos.map RepoState.id

structure SoundTabs (state : AppState) : Prop where
  distinct : state.tabs.Nodup
  noneActive : state.activeRepo = none ↔ state.tabs = []
  activeOpen : ∀ tab, state.activeRepo = some tab → tab ∈ state.tabs

end AppState

def leftOf (tab : RepoId) (tabs : List RepoId) : List RepoId := tabs.takeWhile (· ≠ tab)

def OtherRequested (requested : Option RepoId) (before after : AppState) : Prop :=
  ∃ tab, requested = some tab ∧ tab ∈ after.tabs ∧ before.activeRepo ≠ some tab

structure TabsClosed (closed : List RepoId) (requested : Option RepoId)
    (before after : AppState) : Prop where
  tabs : after.tabs = before.tabs.filter (· ∉ closed)
  noneActive : after.activeRepo = none ↔ after.tabs = []
  activeOpen : ∀ tab, after.activeRepo = some tab → tab ∈ after.tabs
  kept : ∀ tab, before.activeRepo = some tab → tab ∉ closed →
    ¬OtherRequested requested before after → after.activeRepo = some tab
  moved : ∀ tab, before.activeRepo = some tab → tab ∈ closed →
    ¬OtherRequested requested before after →
    after.activeRepo =
      ((leftOf tab before.tabs).filter (· ∉ closed)).getLast?.or after.tabs.head?

structure TabMoved (repoId : RepoId) (insertBefore : Option RepoId)
    (before after : AppState) : Prop where
  active : after.activeRepo = before.activeRepo
  others : after.tabs.filter (· ≠ repoId) = before.tabs.filter (· ≠ repoId)
  absent : repoId ∉ before.tabs → after.tabs = before.tabs
  itself : insertBefore = some repoId → after.tabs = before.tabs
  placed : ∀ target, insertBefore = some target → target ≠ repoId → target ∈ before.tabs →
    repoId ∈ before.tabs → ∃ front back, after.tabs = front ++ repoId :: target :: back
  last : (∀ target, insertBefore = some target → target ∉ before.tabs) → repoId ∈ before.tabs →
    ∃ front, after.tabs = front ++ [repoId]

inductive TabOp where
  | close (repoId : RepoId)
  | closeAll (repoIds : List RepoId) (activateAfter : Option RepoId)
  | reorder (repoId : RepoId) (insertBefore : Option RepoId)
  deriving DecidableEq

namespace TabOp

def apply (state : AppState) : TabOp → AppState
  | close repoId => state.closeRepo repoId
  | closeAll repoIds activateAfter => state.closeRepos repoIds activateAfter
  | reorder repoId insertBefore => state.fillReorderRepoTabsInline repoId insertBefore

def closed : TabOp → List RepoId
  | close repoId => [repoId]
  | closeAll repoIds _ => repoIds
  | reorder _ _ => []

def Does (before after : AppState) : TabOp → Prop
  | close repoId => TabsClosed [repoId] none before after
  | closeAll repoIds activateAfter => TabsClosed repoIds activateAfter before after
  | reorder repoId insertBefore => TabMoved repoId insertBefore before after

end TabOp

def runTabs (state : AppState) (ops : List TabOp) : AppState := ops.foldl TabOp.apply state

section
variable {α : Type}

theorem findIdx?_at {p : α → Bool} {front : List α} {x : α} (hfront : ∀ y ∈ front, p y = false)
    (hx : p x) (back : List α) : (front ++ x :: back).findIdx? p = some front.length := by
  induction front with
  | nil => rw [nil_append, findIdx?_cons, if_pos hx, length_nil]
  | cons y front ih =>
    rw [forall_mem_cons] at hfront
    have hy : ¬p y := Bool.not_eq_true _ ▸ hfront.1
    rw [cons_append, findIdx?_cons, if_neg hy, ih hfront.2, Option.map_some, length_cons]

theorem onRange_at (f : List α → List α) (front mid back : List α) :
    onRange f front.length (front.length + mid.length) (front ++ (mid ++ back)) =
      front ++ (f mid ++ back) := by
  have htake : (front ++ (mid ++ back)).take (front.length + mid.length) = front ++ mid := by
    rw [← append_assoc, ← length_append, take_left]
  have hdrop : (front ++ (mid ++ back)).drop (front.length + mid.length) = back := by
    rw [← append_assoc, ← length_append, drop_left]
  rw [onRange, take_left, htake, hdrop, drop_left]

theorem rotateRight_concat (xs : List α) (x : α) : rotateRight (xs ++ [x]) = x :: xs := by
  rw [rotateRight, getLast?_concat, dropLast_concat]
  rfl

theorem getLast?_filter_reverse (p : α → Bool) (xs : List α) :
    xs.reverse.find? p = (xs.filter p).getLast? := by
  rw [← head?_filter, ← head?_reverse, filter_reverse]

end

variable {tab : RepoId} {front : List RepoState}

variable {next : Option RepoId}

namespace AppState
variable {state : AppState}

theorem replaceF_ids {f : RepoState → Option RepoState}
    (h : ∀ repo after, f repo = some after → after.id = repo.id) (repos : List RepoState) :
    (repos.replaceF f).map RepoState.id = repos.map RepoState.id := by
  induction repos with
  | nil => rfl
  | cons repo repos ih =>
    rw [replaceF_cons]
    cases hrepo : f repo with
    | none => exact congrArg (repo.id :: ·) ih
    | some after =>
      rw [map_cons, map_cons, h repo after hrepo]

variable {f : RepoState → RepoState}

theorem onRepo_tabs (h : ∀ repo, (f repo).id = repo.id)
    (repoId : RepoId) : (state.onRepo repoId f).tabs = state.tabs := by
  refine replaceF_ids (fun repo after hafter => ?_) state.repos
  split_ifs at hafter
  cases hafter
  exact h repo

theorem onActive_tabs (h : ∀ repo, (f repo).id = repo.id) :
    (state.onActive f).tabs = state.tabs := by
  rw [onActive]
  cases state.activeRepo with
  | none => rfl
  | some repoId => exact onRepo_tabs h repoId

theorem repo?_isSome {repoId : RepoId} : (state.repo? repoId).isSome ↔ repoId ∈ state.tabs := by
  rw [repo?, find?_isSome, tabs, mem_map]
  simp only [decide_eq_true_eq]

theorem setActiveRepo_tabs (repoId : RepoId) : (state.setActiveRepo repoId).tabs = state.tabs := by
  have hactivate : ∀ repo : RepoState, repo.activate.id = repo.id :=
    fun repo => ((keptHistory repo).clearCommitSelection (.refl repo)).id
  have hcancel : ∀ repo : RepoState, repo.cancelLoads.id = repo.id := fun _ => rfl
  rw [setActiveRepo]
  split_ifs
  · rfl
  · have hcancelled : (state.onActive RepoState.cancelLoads).tabs = state.tabs :=
      onActive_tabs hcancel
    exact (onRepo_tabs hactivate repoId).trans hcancelled

theorem setActiveRepo_activeRepo {repoId : RepoId} (h : repoId ∈ state.tabs) :
    (state.setActiveRepo repoId).activeRepo = some repoId := by
  have hopen : (state.repo? repoId).isNone = false :=
    Option.isNone_eq_false_iff.mpr (repo?_isSome.mpr h)
  rw [setActiveRepo, hopen, Bool.false_or]
  split_ifs with hactive
  · exact of_decide_eq_true hactive
  · rfl

theorem activateNext_tabs (next : Option RepoId) : (state.activateNext next).tabs = state.tabs := by
  cases next with
  | none => rfl
  | some repoId => exact setActiveRepo_tabs repoId

theorem activateNext_activeRepo (h : ∀ tab, next = some tab → tab ∈ state.tabs) :
    (state.activateNext next).activeRepo = next := by
  cases next with
  | none => rfl
  | some repoId => exact setActiveRepo_activeRepo (h repoId rfl)

theorem exists_tab (hdistinct : state.tabs.Nodup) (h : tab ∈ state.tabs) :
    ∃ front repo back, state.repos = front ++ repo :: back ∧ repo.id = tab ∧
      tab ∉ front.map RepoState.id ∧ tab ∉ back.map RepoState.id := by
  obtain ⟨repo, hrepo, rfl⟩ := mem_map.mp h
  obtain ⟨front, back, hrepos⟩ := append_of_mem hrepo
  rw [tabs, hrepos, map_append, map_cons, nodup_middle, nodup_cons, mem_append, not_or] at hdistinct
  exact ⟨front, repo, back, hrepos, rfl, hdistinct.1⟩

theorem not_tab (h : tab ∉ front.map RepoState.id) :
    ∀ repo ∈ front, decide (repo.id = tab) = false := by
  intro repo hrepo
  refine decide_eq_false ?_
  rintro rfl
  exact h (mem_map_of_mem hrepo)

end AppState

variable {back : List RepoId}

theorem leftOf_at {front : List RepoId} (h : tab ∉ front) :
    leftOf tab (front ++ tab :: back) = front := by
  have hfront : ∀ other ∈ front, decide (other ≠ tab) := by
    intro other hother
    refine decide_eq_true ?_
    rintro rfl
    exact h hother
  rw [leftOf, takeWhile_append_of_pos hfront, takeWhile_cons_of_neg (by simp),
    append_nil]

variable {closed : List RepoId}

theorem not_mem_of_filter {tabs : List RepoId}
    (h : tab ∈ tabs.filter (· ∉ closed)) : tab ∈ tabs ∧ tab ∉ closed := by
  rw [mem_filter, decide_eq_true_eq] at h
  exact h

variable {repo : RepoState}

variable {requested : Option RepoId}

namespace AppState
variable {state : AppState}

theorem adjacent_spec {front : List RepoId} :
    (front.getLast?.or (front ++ back).head?) =
      if 0 < front.length then (front ++ back)[front.length - 1]?
      else (front ++ back)[front.length]? := by
  cases front using reverseRecOn with
  | nil =>
    rw [length_nil, if_neg (lt_irrefl 0), getLast?_nil, Option.none_or, head?_eq_getElem?]
  | append_singleton front tab =>
    have hlen : (front ++ [tab]).length - 1 = front.length := by
      rw [length_append, length_singleton, Nat.add_sub_cancel]
    have hpos : 0 < (front ++ [tab]).length := by
      rw [length_append, length_singleton]
      exact succ_pos _
    rw [if_pos hpos, hlen, getLast?_concat, Option.some_or, append_assoc,
      getElem?_append_right (le_refl _), Nat.sub_self]
    rfl

theorem closeRepo_absent {repoId : RepoId} (h : repoId ∉ state.tabs) :
    state.closeRepo repoId = state := by
  have hfind : state.repos.findIdx? (fun repo => decide (repo.id = repoId)) = none :=
    findIdx?_eq_none_iff.mpr (not_tab h)
  rw [closeRepo, hfind]

theorem closeRepo_open {back : List RepoState}
    (hrepos : state.repos = front ++ repo :: back) (hfront : repo.id ∉ front.map RepoState.id) :
    state.closeRepo repo.id =
      if state.activeRepo = some repo.id then
        activateNext { state with repos := front ++ back }
          ((front.map RepoState.id).getLast?.or ((front ++ back).map RepoState.id).head?)
      else { state with repos := front ++ back } := by
  have hfind : state.repos.findIdx? (fun other => decide (other.id = repo.id)) =
      some front.length := by
    rw [hrepos]
    exact findIdx?_at (not_tab hfront) (decide_eq_true rfl) back
  have herase : state.repos.eraseIdx front.length = front ++ back := by
    rw [hrepos, eraseIdx_append_of_length_le (le_refl _), Nat.sub_self, eraseIdx_cons_zero]
  have hnext : adjacentRepo { state with repos := front ++ back } front.length =
      (front.map RepoState.id).getLast?.or ((front ++ back).map RepoState.id).head? := by
    rw [map_append, adjacent_spec, length_map, adjacentRepo]
    dsimp only
    split_ifs
    · rw [← map_append, getElem?_map]
    · rw [← map_append, getElem?_map]
  rw [closeRepo, hfind]
  simp only [herase, hnext]

theorem filter_tab {back : List RepoState}
    (hfront : repo.id ∉ front.map RepoState.id) (hback : repo.id ∉ back.map RepoState.id) :
    ((front ++ repo :: back).map RepoState.id).filter (· ∉ [repo.id]) =
      (front ++ back).map RepoState.id := by
  have hkeep : ∀ repos : List RepoState, repo.id ∉ repos.map RepoState.id →
      (repos.map RepoState.id).filter (· ∉ [repo.id]) = repos.map RepoState.id := by
    intro repos hrepos
    refine filter_eq_self.mpr fun tab htab => decide_eq_true fun hmem => ?_
    exact hrepos (mem_singleton.mp hmem ▸ htab)
  rw [map_append, map_cons, filter_append, filter_cons_of_neg (by simp),
    hkeep front hfront, hkeep back hback, map_append]

theorem SoundTabs.closeRepo (h : state.SoundTabs) (repoId : RepoId) :
    TabsClosed [repoId] none state (state.closeRepo repoId) := by
  by_cases hopen : repoId ∈ state.tabs
  · obtain ⟨front, repo, back, hrepos, rfl, hfront, hback⟩ := exists_tab h.distinct hopen
    have hleft : (front ++ back).map RepoState.id = state.tabs.filter (· ∉ [repo.id]) := by
      rw [tabs, hrepos, filter_tab hfront hback]
    rw [closeRepo_open hrepos hfront]
    by_cases hactive : state.activeRepo = some repo.id
    · rw [if_pos hactive]
      have hnext : ∀ tab, (front.map RepoState.id).getLast?.or
          ((front ++ back).map RepoState.id).head? = some tab →
          tab ∈ tabs { state with repos := front ++ back } := by
        intro tab htab
        rcases Option.or_eq_some_iff.mp htab with hlast | ⟨-, hhead⟩
        · rw [tabs, map_append]
          exact mem_append_left _ (mem_of_getLast? hlast)
        · exact mem_of_head? hhead
      have hbefore : (leftOf repo.id state.tabs).filter (· ∉ [repo.id]) =
          front.map RepoState.id := by
        rw [tabs, hrepos, map_append, map_cons, leftOf_at hfront]
        refine filter_eq_self.mpr fun tab htab => decide_eq_true fun hmem => ?_
        exact hfront (mem_singleton.mp hmem ▸ htab)
      refine ⟨(activateNext_tabs _).trans hleft, ?_, fun tab htab => ?_, fun tab htab hkept _ => ?_,
        fun tab htab _ _ => ?_⟩
      · rw [activateNext_tabs, activateNext_activeRepo hnext, Option.or_eq_none_iff,
          head?_eq_none_iff]
        refine ⟨And.right, fun hnil => ⟨?_, hnil⟩⟩
        rw [tabs, map_append, append_eq_nil_iff] at hnil
        rw [hnil.1, getLast?_nil]
      · rw [activateNext_activeRepo hnext] at htab
        rw [activateNext_tabs]
        exact hnext tab htab
      · rw [hactive, Option.some.injEq] at htab
        exact absurd (mem_singleton.mpr htab.symm) hkept
      · rw [hactive, Option.some.injEq] at htab
        rw [activateNext_activeRepo hnext, activateNext_tabs, ← htab, hbefore]
        rfl
    · rw [if_neg hactive]
      have hstays : ∀ tab, state.activeRepo = some tab →
          tab ∈ tabs { state with repos := front ++ back } := by
        intro tab htab
        rw [tabs, hleft, mem_filter, decide_eq_true_eq, mem_singleton]
        exact ⟨h.activeOpen tab htab, fun heq => hactive (heq ▸ htab)⟩
      refine ⟨hleft, ⟨fun hnone => ?_, fun hnil => ?_⟩, hstays, fun tab htab _ _ => htab,
        fun tab htab hclosed _ => ?_⟩
      · rw [h.noneActive.mp hnone] at hopen
        cases hopen
      · refine Option.eq_none_iff_forall_ne_some.mpr fun tab htab => ?_
        have hmem := hstays tab htab
        rw [hnil] at hmem
        cases hmem
      · rw [mem_singleton] at hclosed
        exact absurd (hclosed ▸ htab) hactive
  · rw [closeRepo_absent hopen]
    have hall : state.tabs.filter (· ∉ [repoId]) = state.tabs := by
      refine filter_eq_self.mpr fun tab htab => decide_eq_true fun hmem => ?_
      exact hopen (mem_singleton.mp hmem ▸ htab)
    refine ⟨hall.symm, h.noneActive, h.activeOpen, fun tab htab _ _ => htab,
      fun tab htab hclosed _ => ?_⟩
    exact absurd (mem_singleton.mp hclosed ▸ h.activeOpen tab htab) hopen

theorem closeRepos_filter (state : AppState) (repoIds : List RepoId) :
    tabs { state with
      repos := state.repos.filter fun repo =>
        !(repoIds.filter fun repoId => (state.repo? repoId).isSome).contains repo.id } =
      state.tabs.filter (· ∉ repoIds) := by
  have hsame : ∀ repo ∈ state.repos,
      (!(repoIds.filter fun repoId => (state.repo? repoId).isSome).contains repo.id) =
        decide (repo.id ∉ repoIds) := by
    intro repo hrepo
    have hopen : (state.repo? repo.id).isSome := repo?_isSome.mpr (mem_map_of_mem hrepo)
    rw [Bool.eq_iff_iff, Bool.not_eq_true', decide_eq_true_eq, ← Bool.not_eq_true,
      contains_iff_mem, mem_filter, and_iff_left hopen]
  rw [tabs, tabs, filter_map, filter_congr hsame]
  rfl

variable {repoIds : List RepoId}

theorem nearestKept_eq {front : List RepoId}
    (htabs : state.tabs = front ++ tab :: back) (hfront : tab ∉ front)
    (hclosed : ∀ id ∈ state.tabs, closed.contains id = decide (id ∈ repoIds)) :
    state.nearestKept closed tab =
      ((front.filter (· ∉ repoIds)).getLast?).or (back.filter (· ∉ repoIds)).head? := by
  have hfind : state.tabs.findIdx? (fun id => decide (id = tab)) = some front.length := by
    have hother : ∀ id ∈ front, decide (id = tab) = false := by
      intro id hid
      refine decide_eq_false ?_
      rintro rfl
      exact hfront hid
    rw [htabs]
    exact findIdx?_at hother (decide_eq_true rfl) back
  have htake : state.tabs.take front.length = front := by rw [htabs, take_left]
  have hdrop : state.tabs.drop (front.length + 1) = back := by
    rw [htabs, ← drop_drop, drop_left, drop_one, tail_cons]
  have hkept : ∀ ids : List RepoId, ids ⊆ state.tabs →
      ids.filter (fun id => !closed.contains id) = ids.filter (· ∉ repoIds) := by
    intro ids hids
    refine filter_congr fun id hid => ?_
    rw [hclosed id (hids hid), decide_not]
  have hfrontKept := hkept front (htabs ▸ subset_append_left _ _)
  have hbackKept := hkept back (htabs ▸ fun id hid =>
    mem_append_right _ (mem_cons_of_mem _ hid))
  rw [tabs] at hfind htake hdrop
  rw [nearestKept, hfind]
  simp only [htake, hdrop]
  rw [getLast?_filter_reverse, ← head?_filter, hfrontKept, hbackKept]

theorem near_or_first {front : List RepoId} :
    (front.getLast?.or back.head?).or (front ++ back).head? =
      front.getLast?.or (front ++ back).head? := by
  cases front using reverseRecOn with
  | nil => rw [getLast?_nil, Option.none_or, Option.none_or, nil_append, Option.or_self]
  | append_singleton front tab =>
    rw [getLast?_concat]
    rfl

structure NextTab (repoIds : List RepoId) (requested : Option RepoId) (state left : AppState)
    (next : Option RepoId) : Prop where
  none : next = none ↔ left.tabs = []
  isOpen : ∀ tab, next = some tab → tab ∈ left.tabs
  kept : ∀ tab, state.activeRepo = some tab → tab ∉ repoIds →
    ¬OtherRequested requested state left → next = some tab
  moved : ∀ tab, state.activeRepo = some tab → tab ∈ repoIds →
    ¬OtherRequested requested state left →
    next = ((leftOf tab state.tabs).filter (· ∉ repoIds)).getLast?.or left.tabs.head?

variable {left : AppState}

theorem NextTab.closes (h : NextTab repoIds requested state left next)
    (hleft : left.tabs = state.tabs.filter (· ∉ repoIds)) :
    TabsClosed repoIds requested state (left.activateNext next) := by
  have htabs : (left.activateNext next).tabs = left.tabs := activateNext_tabs next
  have hactive : (left.activateNext next).activeRepo = next := activateNext_activeRepo h.isOpen
  have hother : OtherRequested requested state left →
      OtherRequested requested state (left.activateNext next) := by
    rintro ⟨other, hrequested, hmem, hne⟩
    exact ⟨other, hrequested, htabs ▸ hmem, hne⟩
  refine ⟨htabs.trans hleft, ?_, ?_, fun tab htab hkept hnone => ?_,
    fun tab htab hclosed hnone => ?_⟩
  · rw [hactive, htabs]
    exact h.none
  · rw [hactive, htabs]
    exact h.isOpen
  · rw [hactive]
    exact h.kept tab htab hkept fun hrequested => hnone (hother hrequested)
  · rw [hactive, htabs]
    exact h.moved tab htab hclosed fun hrequested => hnone (hother hrequested)

theorem SoundTabs.nextAfterClose (h : state.SoundTabs)
    (hleft : left.tabs = state.tabs.filter (· ∉ repoIds))
    (hclosed : ∀ id ∈ state.tabs, closed.contains id = decide (id ∈ repoIds))
    (requested : Option RepoId) :
    NextTab repoIds requested state left (state.nextAfterClose closed left requested) := by
  have hfirst : left.repos.head?.map RepoState.id = left.tabs.head? := head?_map.symm
  rw [AppState.nextAfterClose, hfirst]
  cases hrequested : requested.filter fun repoId => (left.repo? repoId).isSome with
  | some tab =>
    obtain ⟨hasked, hopen⟩ := Option.filter_eq_some_iff.mp hrequested
    have hmem := repo?_isSome.mp hopen
    refine ⟨⟨fun hnone => (by cases hnone), fun hnil => ?_⟩, fun other hother => ?_,
      fun active hactive _ hother => ?_, fun active hactive hclose hother => ?_⟩
    · rw [hnil] at hmem
      cases hmem
    · exact Option.some.inj hother ▸ hmem
    · refine not_not.mp fun hne => hother ⟨tab, hasked, hmem, fun htab => hne ?_⟩
      exact htab.symm.trans hactive
    · refine absurd ⟨tab, hasked, hmem, fun htab => ?_⟩ hother
      rw [hactive, Option.some.injEq] at htab
      rw [hleft] at hmem
      exact (not_mem_of_filter hmem).2 (htab ▸ hclose)
  | none =>
    have hnone : left.tabs.head? = none ↔ left.tabs = [] := head?_eq_none_iff
    have hopen : ∀ tab, left.tabs.head? = some tab → tab ∈ left.tabs :=
      fun tab htab => mem_of_head? htab
    cases hactive : state.activeRepo with
    | none =>
      have hneither : ∀ tab, state.activeRepo ≠ some tab := fun tab htab => by
        rw [hactive] at htab
        cases htab
      exact ⟨hnone, hopen, fun tab htab => absurd htab (hneither tab),
        fun tab htab => absurd htab (hneither tab)⟩
    | some active =>
      have hmem := h.activeOpen active hactive
      dsimp only
      rw [hclosed active hmem]
      by_cases hclose : active ∈ repoIds
      · rw [if_pos (decide_eq_true hclose)]
        obtain ⟨front, back, htabs⟩ := append_of_mem hmem
        have hfront : active ∉ front := fun hactive =>
          disjoint_of_nodup_append (htabs ▸ h.distinct) hactive mem_cons_self
        have hlist : left.tabs = front.filter (· ∉ repoIds) ++ back.filter (· ∉ repoIds) := by
          rw [hleft, htabs, filter_append, filter_cons_of_neg (by simpa using hclose)]
        have hnear : (state.nearestKept closed active).or left.tabs.head? =
            ((leftOf active state.tabs).filter (· ∉ repoIds)).getLast?.or left.tabs.head? := by
          rw [nearestKept_eq htabs hfront hclosed, hlist, near_or_first, htabs, leftOf_at hfront]
        rw [hnear]
        refine ⟨?_, fun tab htab => ?_, fun tab htab hkept => ?_, fun tab htab _ _ => ?_⟩
        · rw [Option.or_eq_none_iff, hnone]
          refine ⟨And.right, fun hnil => ⟨?_, hnil⟩⟩
          rw [hlist, append_eq_nil_iff] at hnil
          rw [htabs, leftOf_at hfront, hnil.1, getLast?_nil]
        · rcases Option.or_eq_some_iff.mp htab with hlast | ⟨-, hhead⟩
          · rw [htabs, leftOf_at hfront] at hlast
            rw [hlist]
            exact mem_append_left _ (mem_of_getLast? hlast)
          · exact hopen tab hhead
        · exact absurd (Option.some.inj (hactive.symm.trans htab) ▸ hclose) hkept
        · rw [Option.some.inj (hactive.symm.trans htab)]
      · rw [if_neg (by simpa using hclose)]
        have hstays : active ∈ left.tabs := by
          rw [hleft, mem_filter, decide_eq_true_eq]
          exact ⟨hmem, hclose⟩
        have hfilter : (some active).filter (fun repoId => (left.repo? repoId).isSome) =
            some active := if_pos (repo?_isSome.mpr hstays)
        rw [hfilter, Option.some_or]
        refine ⟨⟨fun hnone => (by cases hnone), fun hnil => ?_⟩, fun tab htab => ?_,
          fun tab htab _ _ => hactive.symm.trans htab, fun tab htab hmoved => ?_⟩
        · rw [hnil] at hstays
          cases hstays
        · exact Option.some.inj htab ▸ hstays
        · exact absurd (Option.some.inj (hactive.symm.trans htab) ▸ hmoved) hclose

theorem SoundTabs.closeRepos (h : state.SoundTabs) (repoIds : List RepoId)
    (activateAfter : Option RepoId) :
    TabsClosed repoIds activateAfter state (state.closeRepos repoIds activateAfter) := by
  have hopen : ∀ id ∈ state.tabs,
      (repoIds.filter fun repoId => (state.repo? repoId).isSome).contains id =
        decide (id ∈ repoIds) := by
    intro id hid
    have hsome : (state.repo? id).isSome := repo?_isSome.mpr hid
    rw [Bool.eq_iff_iff, contains_iff_mem, mem_filter, and_iff_left hsome, decide_eq_true_eq]
  rw [AppState.closeRepos]
  by_cases hempty : (repoIds.filter fun repoId => (state.repo? repoId).isSome).isEmpty
  · simp only [hempty, if_true]
    have hnone : ∀ tab ∈ state.tabs, tab ∉ repoIds := by
      intro tab htab
      have hcontains := hopen tab htab
      rw [List.isEmpty_iff.mp hempty] at hcontains
      exact of_decide_eq_false hcontains.symm
    have hall : state.tabs.filter (· ∉ repoIds) = state.tabs :=
      filter_eq_self.mpr fun tab htab => decide_eq_true (hnone tab htab)
    refine ⟨hall.symm, h.noneActive, h.activeOpen, fun tab htab _ _ => htab,
      fun tab htab hclosed _ => ?_⟩
    exact absurd hclosed (hnone tab (h.activeOpen tab htab))
  · simp only [hempty]
    have hleft := closeRepos_filter state repoIds
    exact (h.nextAfterClose hleft hopen activateAfter).closes hleft

end AppState

section
variable {repoId : RepoId} {insertBefore : Option RepoId}

variable {repos : List RepoState}

theorem found_cons {p : RepoState → Bool}
    {found : Option ℕ} (h : found.isSome → ∀ other ∈ repo :: repos, p other = false) (ix : ℕ) :
    (if p repo = true then some ix else found).or ((repos.findIdx? p).map (ix + 1 + ·)) =
      found.or (((repo :: repos).findIdx? p).map (ix + ·)) := by
  by_cases hrepo : p repo
  · have hnone : found = none := by
      refine Option.not_isSome_iff_eq_none.mp fun hsome => ?_
      rw [h hsome repo mem_cons_self] at hrepo
      cases hrepo
    rw [if_pos hrepo, hnone, Option.some_or, Option.none_or, findIdx?_cons, if_pos hrepo]
    rfl
  · rw [if_neg hrepo, findIdx?_cons, if_neg hrepo, Option.map_map]
    refine congrArg _ (congrArg (fun f => Option.map f _) (funext fun k => ?_))
    exact add_right_comm ix 1 k

theorem findTabs_eq {fromIx beforeIx : Option ℕ} (hdistinct : (repos.map RepoState.id).Nodup)
    (hfrom : fromIx.isSome → ∀ repo ∈ repos, decide (repo.id = repoId) = false)
    (hbefore : beforeIx.isSome → ∀ repo ∈ repos, decide (insertBefore = some repo.id) = false)
    (ix : ℕ) :
    findTabs repoId insertBefore ix fromIx beforeIx repos =
      (fromIx.or ((repos.findIdx? fun repo => repo.id = repoId).map (ix + ·)),
        beforeIx.or ((repos.findIdx? fun repo => insertBefore = some repo.id).map (ix + ·))) := by
  induction repos generalizing ix fromIx beforeIx with
  | nil => rw [findTabs, findIdx?_nil, findIdx?_nil, Option.map_none, Option.or_none,
      Option.or_none]
  | cons repo repos ih =>
    rw [map_cons, nodup_cons] at hdistinct
    have hfrom' : (if decide (repo.id = repoId) = true then some ix else fromIx).isSome →
        ∀ other ∈ repos, decide (other.id = repoId) = false := by
      split_ifs with hid
      · rintro - other hother
        refine decide_eq_false fun heq => hdistinct.1 ?_
        rw [of_decide_eq_true hid, ← heq]
        exact mem_map_of_mem hother
      · exact fun hsome other hother => hfrom hsome other (mem_cons_of_mem _ hother)
    have hbefore' : (if decide (insertBefore = some repo.id) = true then some ix
        else beforeIx).isSome → ∀ other ∈ repos, decide (insertBefore = some other.id) = false := by
      split_ifs with hid
      · rintro - other hother
        refine decide_eq_false fun heq => hdistinct.1 ?_
        rw [Option.some.inj ((of_decide_eq_true hid).symm.trans heq)]
        exact mem_map_of_mem hother
      · exact fun hsome other hother => hbefore hsome other (mem_cons_of_mem _ hother)
    have hrest := ih hdistinct.2 hfrom' hbefore' (ix + 1)
    rw [← found_cons hfrom, ← found_cons hbefore, ← hrest, findTabs]
    simp only [decide_eq_true_eq] at hrest ⊢
    by_cases hbreak : ((if repo.id = repoId then some ix else fromIx).isSome &&
        (insertBefore.isNone || (if insertBefore = some repo.id then some ix
          else beforeIx).isSome))
    · obtain ⟨hfound, hdone⟩ := Bool.and_eq_true_iff.mp hbreak
      rw [if_pos hbreak, hrest, Option.or_of_isSome hfound]
      refine congrArg (Prod.mk _) ?_
      rcases Bool.or_eq_true_iff.mp hdone with hnone | hsome
      · have hnowhere :
            repos.findIdx? (fun repo => decide (insertBefore = some repo.id)) = none := by
          refine findIdx?_eq_none_iff.mpr fun other _ => ?_
          rw [Option.isNone_iff_eq_none.mp hnone]
          rfl
        rw [hnowhere, Option.map_none, Option.or_none]
      · rw [Option.or_of_isSome hsome]
    · rw [if_neg hbreak]

def Lands (insertBefore : Option RepoId) (repo : RepoState) (others moved : List RepoState) :
    Prop :=
  ∃ front back, moved = front ++ repo :: back ∧ front ++ back = others ∧
    ((∃ target rest, insertBefore = some target.id ∧ back = target :: rest) ∨
      (back = [] ∧ ∀ other ∈ others, insertBefore ≠ some other.id))

theorem moveTab_forward (front mid : List RepoState) (repo target : RepoState)
    (back : List RepoState) :
    moveTab front.length (some (front.length + (mid.length + 1)))
        (front ++ repo :: (mid ++ target :: back)) = (front ++ mid) ++ repo :: target :: back := by
  have hlen : (repo :: mid).length = mid.length + 1 := length_cons
  rw [moveTab]
  by_cases hnext : front.length + 1 = front.length + (mid.length + 1)
  · have hmid : mid = [] := length_eq_zero_iff.mp (by omega)
    rw [if_pos hnext, hmid, append_nil, nil_append]
  · rw [if_neg hnext, if_pos (Nat.lt_add_of_pos_right (Nat.succ_pos _)), ← hlen, ← cons_append,
      onRange_at, rotateLeft]
    simp only [append_assoc, singleton_append]

theorem moveTab_backward (front mid : List RepoState) (repo target : RepoState)
    (back : List RepoState) :
    moveTab (front.length + (mid.length + 1)) (some front.length)
        (front ++ target :: (mid ++ repo :: back)) =
      front ++ repo :: (target :: (mid ++ back)) := by
  have hlen : front.length + (mid.length + 1) + 1 =
      front.length + (target :: mid ++ [repo]).length := by
    rw [length_append, length_cons, length_singleton, add_assoc]
  have hlist : front ++ target :: (mid ++ repo :: back) =
      front ++ ((target :: mid ++ [repo]) ++ back) := by
    simp only [cons_append, append_assoc, nil_append]
  rw [moveTab, if_neg (by omega), if_neg (by omega), hlen, hlist, onRange_at, rotateRight_concat]
  simp only [cons_append]

theorem moveTab_last (front back : List RepoState) (repo : RepoState) :
    moveTab front.length none (front ++ repo :: back) = (front ++ back) ++ [repo] := by
  rw [moveTab]
  by_cases hlast : front.length + 1 = (front ++ repo :: back).length
  · have hback : back = [] := by
      rw [length_append, length_cons] at hlast
      exact length_eq_zero_iff.mp (by omega)
    rw [if_pos hlast, hback, append_nil]
  · have hall := onRange_at rotateLeft front (repo :: back) []
    rw [append_nil, append_nil, ← length_append] at hall
    rw [if_neg hlast, hall, rotateLeft, append_assoc]

theorem findIdx?_target :
    (repos.findIdx? fun repo => insertBefore = some repo.id) = none ↔
      ∀ repo ∈ repos, insertBefore ≠ some repo.id := by
  rw [findIdx?_eq_none_iff]
  exact forall₂_congr fun repo _ => decide_eq_false_iff_not

theorem lands_moveTab {back : List RepoState}
    (hdistinct : ((front ++ repo :: back).map RepoState.id).Nodup)
    (hself : insertBefore ≠ some repo.id) :
    Lands insertBefore repo (front ++ back) (moveTab front.length
        ((front ++ repo :: back).findIdx? fun other => insertBefore = some other.id)
        (front ++ repo :: back)) := by
  by_cases hopen : ∃ target ∈ front ++ back, insertBefore = some target.id
  · obtain ⟨target, htarget, rfl⟩ := hopen
    rcases mem_append.mp htarget with hfront | hback
    · obtain ⟨before, mid, rfl⟩ := append_of_mem hfront
      have hlist : before ++ target :: mid ++ repo :: back =
          before ++ target :: (mid ++ repo :: back) := by
        rw [append_assoc, cons_append]
      rw [hlist, map_append, map_cons, nodup_middle, nodup_cons, mem_append, not_or] at hdistinct
      have hfind := findIdx?_at (p := fun other => some target.id = some other.id)
        (fun other hother => decide_eq_false fun heq => hdistinct.1.1
          (Option.some.inj heq ▸ mem_map_of_mem hother)) (decide_eq_true rfl)
        (mid ++ repo :: back)
      rw [hlist, hfind, length_append, length_cons, moveTab_backward]
      exact ⟨before, target :: (mid ++ back), rfl, by simp, .inl ⟨target, _, rfl, rfl⟩⟩
    · obtain ⟨mid, after, rfl⟩ := append_of_mem hback
      have hlist : front ++ repo :: (mid ++ target :: after) =
          (front ++ repo :: mid) ++ target :: after := by
        rw [append_assoc, cons_append]
      rw [hlist, map_append, map_cons, nodup_middle, nodup_cons, mem_append, not_or] at hdistinct
      have hfind := findIdx?_at (p := fun other => some target.id = some other.id)
        (fun other hother => decide_eq_false fun heq => hdistinct.1.1
          (Option.some.inj heq ▸ mem_map_of_mem hother)) (decide_eq_true rfl) after
      rw [hlist, hfind, length_append, length_cons, ← hlist, moveTab_forward]
      exact ⟨front ++ mid, target :: after, rfl, by simp, .inl ⟨target, _, rfl, rfl⟩⟩
  · have hnowhere : ∀ other ∈ front ++ repo :: back, insertBefore ≠ some other.id := by
      intro other hother heq
      rcases mem_append.mp hother with hfront | hback
      · exact hopen ⟨other, mem_append_left _ hfront, heq⟩
      · rcases mem_cons.mp hback with rfl | hback
        · exact hself heq
        · exact hopen ⟨other, mem_append_right _ hback, heq⟩
    rw [findIdx?_target.mpr hnowhere, moveTab_last]
    exact ⟨front ++ back, [], rfl, append_nil _, .inr ⟨rfl, fun other hother heq =>
      hopen ⟨other, hother, heq⟩⟩⟩

end

namespace AppState
variable {state : AppState} {repoId : RepoId} {insertBefore : Option RepoId}

theorem reorder_absent (h : repoId ∉ state.tabs) (hdistinct : state.tabs.Nodup) :
    state.fillReorderRepoTabsInline repoId insertBefore = state := by
  have hfind : state.repos.findIdx? (fun repo => decide (repo.id = repoId)) = none :=
    findIdx?_eq_none_iff.mpr (not_tab h)
  rw [fillReorderRepoTabsInline]
  split_ifs
  · rfl
  · rfl
  · rw [findTabs_eq hdistinct (fun hsome => by cases hsome) (fun hsome => by cases hsome), hfind]
    rfl

theorem reorder_open (hdistinct : state.tabs.Nodup) (hself : insertBefore ≠ some repoId)
    (hopen : repoId ∈ state.tabs) :
    ∃ front repo back moved, state.repos = front ++ repo :: back ∧ repo.id = repoId ∧
      repoId ∉ front.map RepoState.id ∧ repoId ∉ back.map RepoState.id ∧
      Lands insertBefore repo (front ++ back) moved ∧
      state.fillReorderRepoTabsInline repoId insertBefore = { state with repos := moved } := by
  obtain ⟨front, repo, back, hrepos, rfl, hfront, hback⟩ := exists_tab hdistinct hopen
  have hfind : state.repos.findIdx? (fun other => decide (other.id = repo.id)) =
      some front.length := by
    rw [hrepos]
    exact findIdx?_at (not_tab hfront) (decide_eq_true rfl) back
  have hids : ((front ++ repo :: back).map RepoState.id).Nodup := by
    rw [← hrepos]
    exact hdistinct
  have hlands := lands_moveTab hids hself
  by_cases hsingle : state.repos.length ≤ 1
  · have hnone : front ++ back = [] := by
      rw [hrepos, length_append, length_cons] at hsingle
      refine length_eq_zero_iff.mp ?_
      rw [length_append]
      omega
    refine ⟨front, repo, back, state.repos, hrepos, rfl, hfront, hback,
      ⟨[], [], ?_, hnone.symm, .inr ⟨rfl, ?_⟩⟩, if_pos hsingle⟩
    · obtain ⟨rfl, rfl⟩ := append_eq_nil_iff.mp hnone
      exact hrepos
    · rw [hnone]
      intro other hother
      cases hother
  · refine ⟨front, repo, back, _, hrepos, rfl, hfront, hback, hlands, ?_⟩
    rw [fillReorderRepoTabsInline, if_neg hsingle, if_neg hself,
      findTabs_eq hdistinct (fun hsome => by cases hsome) (fun hsome => by cases hsome), hfind,
      ← hrepos]
    simp only [Option.none_or, Option.map_some, zero_add, Option.map_id']

theorem SoundTabs.reorder (h : state.SoundTabs) (repoId : RepoId) (insertBefore : Option RepoId) :
    TabMoved repoId insertBefore state (state.fillReorderRepoTabsInline repoId insertBefore) := by
  by_cases hself : insertBefore = some repoId
  · have hstep : state.fillReorderRepoTabsInline repoId insertBefore = state := by
      rw [fillReorderRepoTabsInline, if_pos hself, ite_self]
    rw [hstep]
    refine ⟨rfl, rfl, fun _ => rfl, fun _ => rfl, fun target htarget hne => ?_,
      fun hnone hopen => ?_⟩
    · exact absurd (Option.some.inj (htarget.symm.trans hself)) hne
    · exact absurd hopen (hnone repoId hself)
  · by_cases hopen : repoId ∈ state.tabs
    · obtain ⟨front, repo, back, moved, hrepos, rfl, hfront, hback, hlands, hstep⟩ :=
        reorder_open h.distinct hself hopen
      obtain ⟨before, after, rfl, hothers, hplace⟩ := hlands
      have htabs : state.tabs = front.map RepoState.id ++ repo.id :: back.map RepoState.id := by
        rw [tabs, hrepos, map_append, map_cons]
      have hmoved : tabs { state with repos := before ++ repo :: after } =
          before.map RepoState.id ++ repo.id :: after.map RepoState.id := by
        rw [tabs, map_append, map_cons]
      rw [hstep]
      refine ⟨rfl, ?_, fun habsent => absurd hopen habsent, fun htarget => absurd htarget hself,
        fun target htarget hne hmem _ => ?_, fun hnone _ => ?_⟩
      · rw [hmoved, htabs, filter_append, filter_append,
          filter_cons_of_neg (by simp), filter_cons_of_neg (by simp),
          ← filter_append, ← filter_append, ← map_append, ← map_append, hothers]
      · rcases hplace with ⟨other, rest, hother, rfl⟩ | ⟨-, hnone⟩
        · rw [htarget, Option.some.injEq] at hother
          refine ⟨before.map RepoState.id, rest.map RepoState.id, ?_⟩
          rw [hmoved, hother, map_cons]
        · rw [htabs, mem_append, mem_cons] at hmem
          have hmem' : target ∈ (front ++ back).map RepoState.id := by
            rw [map_append, mem_append]
            exact hmem.imp_right fun h => h.resolve_left hne
          obtain ⟨other, hother, hid⟩ := mem_map.mp hmem'
          exact absurd (hid ▸ htarget) (hnone other hother)
      · rcases hplace with ⟨other, rest, hother, rfl⟩ | ⟨rfl, -⟩
        · refine absurd ?_ (hnone other.id hother)
          have hmem : other ∈ front ++ back :=
            hothers ▸ mem_append_right _ mem_cons_self
          rw [htabs]
          rcases mem_append.mp hmem with hmem | hmem
          · exact mem_append_left _ (mem_map_of_mem hmem)
          · exact mem_append_right _ (mem_cons_of_mem _ (mem_map_of_mem hmem))
        · exact ⟨before.map RepoState.id, hmoved⟩
    · rw [reorder_absent hopen h.distinct]
      exact ⟨rfl, rfl, fun _ => rfl, fun _ => rfl, fun target _ _ _ hmem => absurd hmem hopen,
        fun _ hmem => absurd hmem hopen⟩

theorem SoundTabs.reorder_perm (h : state.SoundTabs) (repoId : RepoId)
    (insertBefore : Option RepoId) :
    (state.fillReorderRepoTabsInline repoId insertBefore).tabs.Perm state.tabs := by
  by_cases hself : insertBefore = some repoId
  · rw [(h.reorder repoId insertBefore).itself hself]
  · by_cases hopen : repoId ∈ state.tabs
    · obtain ⟨front, repo, back, moved, hrepos, rfl, -, -, hlands, hstep⟩ :=
        reorder_open h.distinct hself hopen
      obtain ⟨before, after, rfl, hothers, -⟩ := hlands
      rw [hstep, tabs, tabs, hrepos]
      refine Perm.map RepoState.id ?_
      refine perm_middle.trans (Perm.trans ?_ perm_middle.symm)
      rw [hothers]
    · rw [(h.reorder repoId insertBefore).absent hopen]

end AppState

theorem TabsClosed.sound {before after : AppState} (h : TabsClosed closed requested before after)
    (hbefore : before.SoundTabs) : after.SoundTabs where
  distinct := by
    rw [h.tabs]
    exact hbefore.distinct.filter _
  noneActive := h.noneActive
  activeOpen := h.activeOpen

section
variable {state : AppState}

theorem apply_does (h : state.SoundTabs) (op : TabOp) : op.Does state (op.apply state) := by
  cases op with
  | close repoId => exact h.closeRepo repoId
  | closeAll repoIds activateAfter => exact h.closeRepos repoIds activateAfter
  | reorder repoId insertBefore => exact h.reorder repoId insertBefore

theorem apply_sound (h : state.SoundTabs) (op : TabOp) :
    (op.apply state).SoundTabs ∧
      (op.apply state).tabs.Perm (state.tabs.filter (· ∉ op.closed)) := by
  cases op with
  | close repoId =>
    have hclosed := h.closeRepo repoId
    exact ⟨hclosed.sound h, .of_eq hclosed.tabs⟩
  | closeAll repoIds activateAfter =>
    have hclosed := h.closeRepos repoIds activateAfter
    exact ⟨hclosed.sound h, .of_eq hclosed.tabs⟩
  | reorder repoId insertBefore =>
    have hmoved := h.reorder repoId insertBefore
    have hperm := h.reorder_perm repoId insertBefore
    have hactive : (state.fillReorderRepoTabsInline repoId insertBefore).activeRepo =
        state.activeRepo := hmoved.active
    refine ⟨⟨hperm.nodup_iff.mpr h.distinct, ?_, fun tab htab => ?_⟩, ?_⟩
    · rw [TabOp.apply, hactive, h.noneActive]
      exact ⟨fun hnil => (hnil ▸ hperm).eq_nil, fun hnil => (hnil ▸ hperm).symm.eq_nil⟩
    · rw [TabOp.apply, hactive] at htab
      exact hperm.mem_iff.mpr (h.activeOpen tab htab)
    · have hall : state.tabs.filter (· ∉ TabOp.closed (.reorder repoId insertBefore)) =
          state.tabs :=
        filter_eq_self.mpr fun tab _ => decide_eq_true not_mem_nil
      rw [hall]
      exact hperm

theorem runTabs_sound (h : state.SoundTabs) (ops : List TabOp) :
    (runTabs state ops).SoundTabs ∧
      (runTabs state ops).tabs.Perm (state.tabs.filter (· ∉ ops.flatMap TabOp.closed)) := by
  induction ops generalizing state with
  | nil =>
    refine ⟨h, .of_eq (filter_eq_self.mpr fun tab _ => decide_eq_true ?_).symm⟩
    exact not_mem_nil
  | cons op ops ih =>
    obtain ⟨hsound, hperm⟩ := apply_sound h op
    obtain ⟨hrun, hrest⟩ := ih hsound
    refine ⟨hrun, hrest.trans ((hperm.filter _).trans (.of_eq ?_))⟩
    rw [filter_filter]
    refine filter_congr fun tab _ => ?_
    rw [Bool.eq_iff_iff, Bool.and_eq_true, decide_eq_true_eq, decide_eq_true_eq, decide_eq_true_eq,
      flatMap_cons, mem_append, not_or, and_comm]

theorem closeRepo_each (h : state.SoundTabs) (repoIds : List RepoId) :
    (repoIds.foldl AppState.closeRepo state).tabs = state.tabs.filter (· ∉ repoIds) := by
  induction repoIds generalizing state with
  | nil => exact (filter_eq_self.mpr fun tab _ => decide_eq_true not_mem_nil).symm
  | cons repoId repoIds ih =>
    have hclosed := h.closeRepo repoId
    rw [foldl_cons, ih (hclosed.sound h), hclosed.tabs, filter_filter]
    refine filter_congr fun tab _ => ?_
    rw [Bool.eq_iff_iff, Bool.and_eq_true, decide_eq_true_eq, decide_eq_true_eq, decide_eq_true_eq,
      mem_singleton, mem_cons, not_or, and_comm]

end

theorem tab_list_stays_sound {state : AppState} (h : state.SoundTabs) (ops : List TabOp) :
    let before := runTabs state ops
    before.SoundTabs ∧
      before.tabs.Perm (state.tabs.filter (· ∉ ops.flatMap TabOp.closed)) ∧
      (∀ op, TabOp.Does before (op.apply before) op) ∧
      ∀ repoIds activateAfter, (repoIds.foldl AppState.closeRepo before).tabs =
        (before.closeRepos repoIds activateAfter).tabs := by
  obtain ⟨hsound, hperm⟩ := runTabs_sound h ops
  refine ⟨hsound, hperm, apply_does hsound, fun repoIds activateAfter => ?_⟩
  rw [closeRepo_each hsound, (hsound.closeRepos repoIds activateAfter).tabs]

def threeTabs : AppState :=
  ⟨[.newOpening 1, .newOpening 2, .newOpening 3], some 2, 4⟩

theorem three_tabs_sound : threeTabs.SoundTabs where
  distinct := by decide
  noneActive := ⟨fun hnone => (by cases hnone), fun hnil => (by cases hnil)⟩
  activeOpen := by
    rintro tab htab
    cases htab
    decide

theorem three_tabs_stay_sound : (runTabs threeTabs [.close 2, .reorder 3 (some 1)]).SoundTabs :=
  (tab_list_stays_sound three_tabs_sound [.close 2, .reorder 3 (some 1)]).1

end GitComet.Selection
