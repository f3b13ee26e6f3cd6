import GitComet.LogPages.Paging

namespace GitComet.LogPages
open List

section

variable (t : Traversal) (mode : HistoryMode) (author : Option (List Char)) (refs : LogRefs)

inductive Follows : Session → Option LogCursor → List (ℕ × LogPage) → Prop
  | last {session session' : Session} {cursor : Option LogCursor} {limit : ℕ} {page : LogPage}
    (hrun : SessionRun t session session') (hlimit : 0 < limit)
    (hpage : (logHistoryModePage t mode author limit cursor refs session'.caches).1 = page)
    (hend : page.nextCursor = none) : Follows session cursor [(limit, page)]
  | more {session session' : Session} {cursor : Option LogCursor} {limit : ℕ} {page : LogPage}
    {next : LogCursor} {pages : List (ℕ × LogPage)}
    (hrun : SessionRun t session session') (hlimit : 0 < limit)
    (hpage : (logHistoryModePage t mode author limit cursor refs session'.caches).1 = page)
    (hnext : page.nextCursor = some next)
    (hrest : Follows (session'.afterPage t mode author limit cursor refs) (some next) pages) :
    Follows session cursor ((limit, page) :: pages)

def shownBy (pages : List (ℕ × LogPage)) : List Commit := pages.flatMap fun page => page.2.commits

structure Concatenate (shown : List Commit) (pages : List (ℕ × LogPage)) : Prop where
  whole : shownBy pages = shown
  bounded : ∀ page ∈ pages, page.2.commits.length ≤ page.1
  next_iff : ∀ before page after, pages = before ++ page :: after →
    (page.2.nextCursor.isSome = true ↔ (shownBy (before ++ [page])).length < shown.length)

variable {t mode author refs}

def ToCome (t : Traversal) (mode : HistoryMode) (author : Option (List Char)) (refs : LogRefs)
    (session : Session) (cursor : Option LogCursor) (shown : List Commit) : Prop :=
  match cursor with
  | none => shown = matching t mode (AuthorFilter.new author)
    (t.walk (pageSeed mode refs).tipIds mode refs.shallow)
  | some seen => seen ∈ session.issued ∧ ∃ after,
    Continues t mode (pageSeed mode refs).tipIds refs.shallow (AuthorFilter.new author)
      seen.lastSeen after ∧ shown = matching t mode (AuthorFilter.new author) after

variable {session : Session} {cursor : Option LogCursor} {shown : List Commit}

theorem ToCome.later {session' : Session} (hcome : ToCome t mode author refs session cursor shown)
    (hrun : SessionRun t session session') : ToCome t mode author refs session' cursor shown := by
  cases cursor with
  | none => exact hcome
  | some seen => exact ⟨hrun.issued_subset hcome.1, hcome.2⟩

theorem ToCome.issued (hcome : ToCome t mode author refs session cursor shown) :
    ∀ seen ∈ cursor, seen ∈ session.issued := by
  rintro seen rfl
  exact hcome.1

theorem ToCome.page {session : Session} {cursor : Option LogCursor} {shown : List Commit}
    {limit : ℕ} {page : LogPage} (hcome : ToCome t mode author refs session cursor shown)
    (hright : PageRight t mode (pageSeed mode refs).tipIds refs.shallow (AuthorFilter.new author)
      limit (cursor.map (·.lastSeen)) page) : PageOf limit shown page := by
  cases cursor with
  | none =>
    obtain rfl := hcome
    exact hright
  | some seen =>
    obtain ⟨-, after, hcontinues, rfl⟩ := hcome
    exact hright after hcontinues

theorem ToCome.walk (hcome : ToCome t mode author refs session cursor shown) : ∃ before after,
    t.walk (pageSeed mode refs).tipIds mode refs.shallow = before ++ after ∧
      shown = matching t mode (AuthorFilter.new author) after := by
  cases cursor with
  | none => exact ⟨[], _, rfl, hcome⟩
  | some seen =>
    obtain ⟨-, after, hcontinues, hshown⟩ := hcome
    obtain ⟨before, hbefore⟩ := hcontinues.inWalk
    exact ⟨before ++ [seen.lastSeen], after, by rw [hbefore]; simp, hshown⟩

variable {limit : ℕ}

theorem ToCome.next (hcome : ToCome t mode author refs session cursor shown) (hlimit : 0 < limit)
    {next : LogCursor} (hpage : PageOf limit shown
      (logHistoryModePage t mode author limit cursor refs session.caches).1)
    (hnext : (logHistoryModePage t mode author limit cursor refs session.caches).1.nextCursor =
      some next) :
    ToCome t mode author refs (session.afterPage t mode author limit cursor refs) (some next)
      (shown.drop limit) := by
  obtain ⟨before, after, hwalk, hshown⟩ := hcome.walk
  have hmore := hpage.more_iff.mp (by rw [hnext]; rfl)
  obtain ⟨commit, hlast, hid⟩ := hpage.lastSeen next hnext
  subst hshown
  have hlength := hmore
  rw [matching, length_map] at hlength
  obtain ⟨front, last, post, hafter, htake, hdrop⟩ :=
    split_at_match (selects t mode (AuthorFilter.new author)) hlimit hlength
  have hcommit : t.object last = commit := by
    rw [hpage.commits, matching, ← map_take, getLast?_map, htake] at hlast
    exact Option.some.inj hlast
  have hpost : matching t mode (AuthorFilter.new author) post =
      (matching t mode (AuthorFilter.new author) after).drop limit := by
    rw [matching, hdrop, map_drop, matching]
  have hseen : next.lastSeen = last := by rw [← hid, ← hcommit, t.object_id]
  refine ⟨mem_append_right _ (Option.mem_toList.mpr hnext), post, ⟨?_, ?_⟩, hpost.symm⟩
  · exact ⟨before ++ front, by rw [hwalk, hafter, hseen, append_assoc]⟩
  · rw [hpost, ne_eq, drop_eq_nil_iff, not_le]
    exact hmore

theorem concatenate_last {page : LogPage}
    (hpage : PageOf limit shown page) (hend : page.nextCursor = none) :
    Concatenate shown [(limit, page)] := by
  have hall : shown.length ≤ limit := by
    by_contra hmore
    have hnext := hpage.more_iff.mpr (not_le.mp hmore)
    rw [hend] at hnext
    cases hnext
  have hwhole : shownBy [(limit, page)] = shown := by
    rw [shownBy, flatMap_singleton, hpage.commits, take_of_length_le hall]
  refine ⟨hwhole, fun other hother => ?_, fun before other after hpages => ?_⟩
  · rw [mem_singleton.mp hother, hpage.commits]
    exact length_take_le _ _
  · obtain ⟨rfl, rfl, rfl⟩ : before = [] ∧ other = (limit, page) ∧ after = [] := by
      cases before with
      | nil =>
        obtain ⟨hfirst, hrest⟩ := cons.inj hpages
        exact ⟨rfl, hfirst.symm, hrest.symm⟩
      | cons first before => simp at hpages
    rw [nil_append, hwhole, hend]
    simp

theorem concatenate_more {page : LogPage}
    {pages : List (ℕ × LogPage)} (hpage : PageOf limit shown page)
    (hnext : page.nextCursor.isSome) (hrest : Concatenate (shown.drop limit) pages) :
    Concatenate shown ((limit, page) :: pages) := by
  have hmore := hpage.more_iff.mp hnext
  have hlength : page.commits.length = limit := by
    rw [hpage.commits, length_take, min_eq_left hmore.le]
  refine ⟨?_, fun other hother => ?_, fun before other after hpages => ?_⟩
  · have hwhole := hrest.whole
    rw [shownBy] at hwhole
    rw [shownBy, flatMap_cons, hwhole, hpage.commits, take_append_drop]
  · rcases mem_cons.mp hother with rfl | hother
    · exact hlength.le
    · exact hrest.bounded other hother
  · cases before with
    | nil =>
      obtain ⟨rfl, -⟩ := cons.inj hpages
      rw [nil_append, shownBy, flatMap_singleton, hlength]
      exact iff_of_true hnext hmore
    | cons first before =>
      obtain ⟨rfl, hbehind⟩ := cons.inj hpages
      have hlater := hrest.next_iff before other after hbehind
      rw [length_drop] at hlater
      rw [hlater, cons_append, shownBy, shownBy, flatMap_cons, length_append, hlength]
      omega

theorem follows_concatenate {session : Session} {cursor : Option LogCursor}
    {pages : List (ℕ × LogPage)} (hfollows : Follows t mode author refs session cursor pages)
    (hsound : session.Sound t) {shown : List Commit}
    (hcome : ToCome t mode author refs session cursor shown) : Concatenate shown pages := by
  induction hfollows generalizing shown with
  | last hrun hlimit hpage hend =>
    have hlater := hcome.later hrun
    have hof := hlater.page
      (logHistoryModePage_sound (hrun.sound hsound) mode author refs hlater.issued hlimit).2
    rw [hpage] at hof
    exact concatenate_last hof hend
  | more hrun hlimit hpage hnext hrest ih =>
    have hlater := hcome.later hrun
    have hstep :=
      logHistoryModePage_sound (hrun.sound hsound) mode author refs hlater.issued hlimit
    have hof := hlater.page hstep.2
    have hrest := ih hstep.1 (hlater.next hlimit hof (hpage ▸ hnext))
    rw [hpage] at hof
    exact concatenate_more hof (by rw [hnext]; rfl) hrest

theorem follows_end {limits : ℕ → ℕ} (hlimits : ∀ i, 0 < limits i) {session : Session}
    (hsound : session.Sound t) {cursor : Option LogCursor} {shown : List Commit}
    (hcome : ToCome t mode author refs session cursor shown) (first : ℕ) :
    ∃ pages, Follows t mode author refs session cursor pages ∧
      pages.map Prod.fst = (range' first pages.length).map limits := by
  induction hn : shown.length using Nat.strong_induction_on generalizing session cursor shown first
    with
  | _ n ih =>
    have hstep := logHistoryModePage_sound hsound mode author refs hcome.issued (hlimits first)
    have hof := hcome.page hstep.2
    cases hnext :
      (logHistoryModePage t mode author (limits first) cursor refs session.caches).1.nextCursor with
    | none => exact ⟨_, .last .refl (hlimits first) rfl hnext, rfl⟩
    | some next =>
      have hmore := hof.more_iff.mp (by rw [hnext]; rfl)
      have hless : (shown.drop (limits first)).length < n := by
        have hpositive := hlimits first
        rw [length_drop]
        omega
      obtain ⟨pages, hpages, hfirst⟩ :=
        ih _ hless hstep.1 (hcome.next (hlimits first) hof hnext) (first + 1) rfl
      refine ⟨_, .more .refl (hlimits first) rfl hnext hpages, ?_⟩
      rw [map_cons, hfirst]
      rfl

end

def toShowOf (t : Traversal) (mode : HistoryMode) (author : Option (List Char))
    (refs : LogRefs) : List Commit :=
  matching t mode (AuthorFilter.new author)
    (t.walk (pageSeed mode refs).tipIds mode refs.shallow)

theorem matching_nodup (t : Traversal) (mode : HistoryMode) (author : Option AuthorFilter)
    {ids : List ObjectId} (hnodup : ids.Nodup) :
    ((matching t mode author ids).map (·.id)).Nodup := by
  have hids : (matching t mode author ids).map (·.id) = ids.filter (selects t mode author) := by
    rw [matching, map_map]
    exact (map_congr_left fun id _ => t.object_id id).trans (map_id _)
  rw [hids]
  exact hnodup.filter _

theorem log_pages_concatenate (t : Traversal) (mode : HistoryMode) (author : Option (List Char))
    (refs : LogRefs) {session : Session} (hrun : SessionRun t Session.start session) :
    (∀ pages, Follows t mode author refs session none pages →
      Concatenate (toShowOf t mode author refs) pages) ∧
    ((toShowOf t mode author refs).map (·.id)).Nodup ∧
    ∀ limits : ℕ → ℕ, (∀ i, 0 < limits i) → ∃ pages, Follows t mode author refs session none pages ∧
        pages.map Prod.fst = (range pages.length).map limits := by
  have hsound := hrun.sound sound_start
  have hcome : ToCome t mode author refs session none (toShowOf t mode author refs) := rfl
  refine ⟨fun pages hpages => follows_concatenate hpages hsound hcome,
    matching_nodup t mode _ (t.walk_nodup _ _ _), fun limits hlimits => ?_⟩
  obtain ⟨pages, hpages, hlimit⟩ := follows_end hlimits hsound hcome 0
  exact ⟨pages, hpages, by rw [hlimit, range_eq_range']⟩

def downFrom : ℕ → List ObjectId
  | 0 => [0]
  | id + 1 => (id + 1) :: downFrom id

theorem downFrom_lt {tip id : ℕ} (hid : id ∈ downFrom tip) : id ≤ tip := by
  induction tip with
  | zero => exact (mem_singleton.mp hid).le
  | succ tip ih =>
    rcases mem_cons.mp hid with rfl | hid
    · exact le_refl _
    · exact (ih hid).trans (Nat.le_succ _)

theorem downFrom_nodup (tip : ℕ) : (downFrom tip).Nodup := by
  induction tip with
  | zero => exact nodup_cons.mpr ⟨not_mem_nil, nodup_nil⟩
  | succ tip ih =>
    exact nodup_cons.mpr ⟨fun hmem => Nat.not_succ_le_self _ (downFrom_lt hmem), ih⟩

theorem downFrom_after {tip id : ℕ} {before after : List ObjectId}
    (hsplit : downFrom tip = before ++ id :: after) (hafter : after ≠ []) :
    ∃ parent, id = parent + 1 ∧ downFrom parent = after := by
  induction tip generalizing before with
  | zero =>
    cases before with
    | nil => exact absurd (cons.inj hsplit).2.symm hafter
    | cons first before => simp [downFrom] at hsplit
  | succ tip ih =>
    cases before with
    | nil =>
      obtain ⟨rfl, hrest⟩ := cons.inj hsplit
      exact ⟨tip, rfl, hrest⟩
    | cons first before => exact ih (cons.inj hsplit).2

def parentBelow : ObjectId → List ObjectId
  | 0 => []
  | id + 1 => [id]

def tipLine : List ObjectId → List ObjectId
  | [] => []
  | tip :: _ => downFrom tip

def straightHistory : Traversal where
  object := fun id => ⟨id, parentBelow id, none⟩
  walk := fun tips _ _ => tipLine tips
  isDateOrder := fun _ mode shallow => mode ≠ .firstParent ∧ shallow = []
  object_id := fun _ => rfl
  walk_nil := fun _ _ => rfl
  walk_nodup := fun tips _ _ => by
    cases tips with
    | nil => exact nodup_nil
    | cons tip tips => exact downFrom_nodup tip
  firstParent_resumes := fun tip _ before id after hsplit hafter => by
    obtain ⟨parent, rfl, hrest⟩ := downFrom_after hsplit hafter
    exact ⟨parent, rfl, hrest⟩

def threeCommits : LogRefs := ⟨some 2, [2], []⟩

theorem log_pages_concatenate_straight :
    ∃ pages, Follows straightHistory .firstParent none threeCommits
        (Session.start.afterPage straightHistory .fullReachable none 1 none threeCommits) none
        pages ∧ (shownBy pages).map (·.id) = [2, 1, 0] := by
  have hrun : SessionRun straightHistory Session.start
      (Session.start.afterPage straightHistory .fullReachable none 1 none threeCommits) :=
    .single (.page .fullReachable none 1 none threeCommits fun _ hseen => absurd hseen (by simp))
  obtain ⟨hall, -, hends⟩ :=
    log_pages_concatenate straightHistory .firstParent none threeCommits hrun
  obtain ⟨pages, hpages, -⟩ := hends (fun _ => 2) fun _ => by decide
  exact ⟨pages, hpages, by rw [(hall pages hpages).whole]; decide⟩

end GitComet.LogPages
