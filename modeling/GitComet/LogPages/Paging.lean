import GitComet.LogPages.Caches
import Mathlib.Logic.Relation

namespace GitComet.LogPages
open List Nat

variable {limit : ℕ}

section

variable {α : Type} (p : α → Bool)

theorem split_at_match {list : List α} (hlimit : 0 < limit)
    (hmore : limit < (list.filter p).length) :
    ∃ before last after, list = before ++ last :: after ∧
      ((list.filter p).take limit).getLast? = some last ∧
      after.filter p = (list.filter p).drop limit := by
  induction list generalizing limit with
  | nil => exact absurd hmore (Nat.not_lt_zero _)
  | cons x list ih =>
    cases hp : p x with
    | false =>
      rw [filter_cons_of_neg (by simp [hp])] at hmore ⊢
      obtain ⟨before, last, after, hsplit, htake, hdrop⟩ := ih hlimit hmore
      exact ⟨x :: before, last, after, by rw [hsplit]; rfl, htake, hdrop⟩
    | true =>
      rw [filter_cons_of_pos hp] at hmore ⊢
      obtain ⟨limit, rfl⟩ := Nat.exists_eq_succ_of_ne_zero hlimit.ne'
      rw [length_cons] at hmore
      by_cases hone : limit = 0
      · subst hone
        exact ⟨[], x, list, rfl, rfl, rfl⟩
      · obtain ⟨before, last, after, hsplit, htake, hdrop⟩ :=
          ih (Nat.pos_of_ne_zero hone) (by omega)
        refine ⟨x :: before, last, after, by rw [hsplit]; rfl, ?_, hdrop⟩
        rw [take_succ_cons, getLast?_cons, htake]
        rfl

end

variable {t : Traversal}

def selects (t : Traversal) (mode : HistoryMode) (author : Option AuthorFilter) (id : ObjectId) :
    Bool :=
  included mode (t.object id) && accepts author (t.object id)

def matching (t : Traversal) (mode : HistoryMode) (author : Option AuthorFilter)
    (ids : List ObjectId) : List Commit :=
  (ids.filter (selects t mode author)).map t.object

variable {gate : CursorGate} {after : List ObjectId}

theorem toShow_fresh {mode : HistoryMode} {author : Option AuthorFilter} {ids : List ObjectId}
    (hgate : gate.passed (ids.map t.object) = after.map t.object) :
    toShow mode author ⟨[], ids.map t.object⟩ gate = matching t mode author after := by
  rw [toShow, available, nil_append, hgate, filter_map, filter_map, filter_filter, matching]
  refine congrArg (List.map _) (filter_congr fun id _ => ?_)
  rw [selects, Bool.and_comm]
  rfl

def Line (t : Traversal) (mode : HistoryMode) (tips shallow line : List ObjectId) : Prop :=
  line = t.walk tips mode shallow ∨ mode = .firstParent ∧ ∃ tip, line = t.walk [tip] mode shallow

variable {line : List ObjectId}

theorem after_unique {α : Type} {line before before' after after' : List α} {x : α}
    (hnodup : line.Nodup) (hline : line = before ++ x :: after)
    (hline' : line = before' ++ x :: after') : after = after' := by
  rw [hline] at hnodup
  obtain ⟨-, hafter, hbefore⟩ := nodup_append.mp hnodup
  have hsame : before ++ x :: after = before' ++ x :: after' := hline.symm.trans hline'
  refine ((append_cons_inj_of_notMem (fun hmem => ?_) ?_).mp hsame).2.2
  · exact hbefore x hmem x mem_cons_self rfl
  · exact (nodup_cons.mp hafter).1

variable {id : ObjectId}

theorem Line.after_eq {mode : HistoryMode} {tips shallow line' : List ObjectId}
    (htips : mode = .firstParent → ∃ tip, tips = [tip]) (hline : Line t mode tips shallow line)
    (hline' : Line t mode tips shallow line') {before before' after' : List ObjectId}
    (hsplit : line = before ++ id :: after) (hsplit' : line' = before' ++ id :: after')
    (hafter : after ≠ []) (hafter' : after' ≠ []) : after = after' := by
  by_cases hmode : mode = .firstParent
  · subst hmode
    obtain ⟨tip, rfl⟩ := htips rfl
    have hparent : ∀ {line before after : List ObjectId}, Line t .firstParent [tip] shallow line →
        line = before ++ id :: after → after ≠ [] → ∃ parent,
          (t.object id).parentIds.head? = some parent ∧
            t.walk [parent] .firstParent shallow = after := by
      rintro line before after (rfl | ⟨-, tip, rfl⟩) hsplit hafter
      · exact t.firstParent_resumes _ _ _ _ _ hsplit hafter
      · exact t.firstParent_resumes _ _ _ _ _ hsplit hafter
    obtain ⟨parent, hhead, hwalk⟩ := hparent hline hsplit hafter
    obtain ⟨parent', hhead', hwalk'⟩ := hparent hline' hsplit' hafter'
    obtain rfl : parent = parent' := Option.some.inj (hhead.symm.trans hhead')
    exact hwalk.symm.trans hwalk'
  · have hsame : ∀ {line : List ObjectId}, Line t mode tips shallow line →
        line = t.walk tips mode shallow := fun hline =>
      hline.resolve_right fun hother => hmode hother.1
    obtain rfl := hsame hline
    obtain rfl := hsame hline'
    exact after_unique (t.walk_nodup _ _ _) hsplit hsplit'

structure PageOf (limit : ℕ) (shown : List Commit) (page : LogPage) : Prop where
  commits : page.commits = shown.take limit
  more_iff : page.nextCursor.isSome = true ↔ limit < shown.length
  lastSeen : ∀ cursor ∈ page.nextCursor, ∃ commit, page.commits.getLast? = some commit ∧
    commit.id = cursor.lastSeen

def paginateLoop (limit : ℕ) (gate : CursorGate) (result : List Commit) : List Commit → LogPage
  | [] => ⟨result, none⟩
  | commit :: commits =>
    let skipped := gate.shouldSkip commit.id
    if skipped.2 then paginateLoop limit skipped.1 result commits
    else if limit ≤ result.length then
      ⟨result, result.getLast?.map fun last => ⟨last.id, none, none⟩⟩
    else paginateLoop limit skipped.1 (result ++ [commit]) commits

def paginateCommits (commits : List Commit) (limit : ℕ) (cursor : Option LogCursor) : LogPage :=
  if limit = 0 then emptyLogPage else paginateLoop limit (CursorGate.new cursor) [] commits

variable {commits : List Commit}

theorem paginateLoop_pageOf (hlimit : 0 < limit)
    {result : List Commit} (hresult : result.length ≤ limit) :
    PageOf limit (result ++ gate.passed commits) (paginateLoop limit gate result commits) := by
  induction commits generalizing gate result with
  | nil =>
    rw [CursorGate.passed, append_nil]
    refine ⟨(take_of_length_le hresult).symm, ?_, fun cursor hcursor => by cases hcursor⟩
    simp [paginateLoop, hresult]
  | cons commit commits ih =>
    rw [paginateLoop]
    cases hskip : (gate.shouldSkip commit.id).2 with
    | true =>
      rw [if_pos rfl, CursorGate.passed_skip hskip]
      exact ih hresult
    | false =>
      rw [if_neg Bool.false_ne_true, CursorGate.passed_keep hskip]
      by_cases hfull : limit ≤ result.length
      · obtain rfl : limit = result.length := le_antisymm hfull hresult
        obtain ⟨last, hlast⟩ := getLast?_isSome.mpr (length_pos_iff.mp hlimit) |>
          Option.isSome_iff_exists.mp
        rw [if_pos hfull, hlast]
        refine ⟨take_left.symm, by simp, fun cursor hcursor => ?_⟩
        cases hcursor
        exact ⟨last, hlast, rfl⟩
      · have hnext : (result ++ [commit]).length ≤ limit := by
          rw [length_append, length_singleton]
          omega
        rw [if_neg hfull, ← singleton_append, ← append_assoc]
        exact ih hnext

structure Continues (t : Traversal) (mode : HistoryMode) (tips shallow : List ObjectId)
    (author : Option AuthorFilter) (id : ObjectId) (after : List ObjectId) : Prop where
  inWalk : ∃ before, t.walk tips mode shallow = before ++ id :: after
  more : matching t mode author after ≠ []

theorem Continues.after_ne {mode : HistoryMode} {tips shallow : List ObjectId}
    {author : Option AuthorFilter}
    (hcontinues : Continues t mode tips shallow author id after) : after ≠ [] := by
  rintro rfl
  exact hcontinues.more rfl

def PageRight (t : Traversal) (mode : HistoryMode) (tips shallow : List ObjectId)
    (author : Option AuthorFilter) (limit : ℕ) (lastSeen : Option ObjectId) (page : LogPage) :
    Prop :=
  match lastSeen with
  | none => PageOf limit (matching t mode author (t.walk tips mode shallow)) page
  | some id => ∀ after, Continues t mode tips shallow author id after →
    PageOf limit (matching t mode author after) page

structure ParkedAt (t : Traversal) (entry : LogPagedWalkCacheEntry) (id : ObjectId) : Prop where
  pending : Parked entry.author entry.state.pending
  line : ∃ line before after, Line t entry.mode entry.tips entry.shallow line ∧
    line = before ++ id :: after ∧ matching t entry.mode entry.author after ≠ [] ∧
    toShow entry.mode entry.author entry.state CursorGate.opened =
      matching t entry.mode entry.author after

structure Session where
  caches : LogCaches
  issued : List LogCursor

structure Session.Sound (t : Traversal) (session : Session) : Prop where
  hints : ∀ cursor ∈ session.issued, ∀ parent ∈ cursor.resumeFrom,
    (t.object cursor.lastSeen).parentIds.head? = some parent
  tokens : ∀ cursor ∈ session.issued, ∀ token ∈ cursor.resumeToken, token < session.caches.nextId
  fresh : ∀ entry ∈ session.caches.walks, entry.token < session.caches.nextId
  parked : ∀ entry ∈ session.caches.walks, ∀ cursor ∈ session.issued,
    cursor.resumeToken = some entry.token → ParkedAt t entry cursor.lastSeen
  pages : ∀ entry ∈ session.caches.pages,
    PageRight t entry.key.mode entry.key.seed.tipIds entry.key.shallow entry.key.author
        entry.key.limit entry.key.lastSeen entry.page ∧
      ∀ cursor ∈ entry.page.nextCursor, cursor ∈ session.issued

section

variable {mode : HistoryMode} {tips shallow : List ObjectId} {author : Option AuthorFilter}
  {cursor : Option LogCursor} {session : Session}

structure Started (t : Traversal) (mode : HistoryMode) (tips shallow : List ObjectId)
    (author : Option AuthorFilter) (cursor : Option LogCursor) (state : LogPagedWalkState)
    (gate : CursorGate) : Prop where
  pending : Parked author state.pending
  opened : state.pending ≠ [] → gate.started = true
  line : ∃ line before after, Line t mode tips shallow line ∧ line = before ++ after ∧
    toShow mode author state gate = matching t mode author after ∧
    (cursor = none → after = t.walk tips mode shallow) ∧
    ∀ seen ∈ cursor, ∀ rest, Continues t mode tips shallow author seen.lastSeen rest →
      matching t mode author after = matching t mode author rest

theorem started_new (after : List ObjectId)
    (hline : Line t mode tips shallow line) (hafter : ∃ before, line = before ++ after)
    (hgate : gate.passed (line.map t.object) = after.map t.object)
    (hfirst : cursor = none → after = t.walk tips mode shallow)
    (hrest : ∀ seen ∈ cursor, ∀ rest, Continues t mode tips shallow author seen.lastSeen rest →
      after = rest) :
    Started t mode tips shallow author cursor ⟨[], line.map t.object⟩ gate := by
  obtain ⟨before, hsplit⟩ := hafter
  refine ⟨fun _ => zero_le _, fun hne => absurd rfl hne, line, before, after, hline, hsplit,
    toShow_fresh hgate, hfirst, fun seen hseen rest hcontinues => ?_⟩
  rw [hrest seen hseen rest hcontinues]

theorem started_tips (hcursor : cursor = none) :
    Started t mode tips shallow author cursor (newLogPagedWalk t tips mode shallow)
      (CursorGate.new cursor) := by
  subst hcursor
  exact started_new _ (.inl rfl) ⟨[], rfl⟩ (CursorGate.passed_started rfl _) (fun _ => rfl)
    fun seen hseen => absurd hseen (by simp)

variable {seen : LogCursor}

theorem passed_missing (hmissing : ∀ commit ∈ commits, commit.id ≠ seen.lastSeen) :
    (CursorGate.new (some seen)).passed commits = [] := by
  induction commits with
  | nil => rfl
  | cons commit commits ih =>
    have hother : seen.lastSeen ≠ commit.id := Ne.symm (hmissing commit mem_cons_self)
    have hskip : (CursorGate.new (some seen)).shouldSkip commit.id =
        (CursorGate.new (some seen), true) := by
      simp [CursorGate.new, CursorGate.shouldSkip, hother]
    rw [CursorGate.passed_skip (by rw [hskip]), hskip]
    exact ih fun commit hcommit => hmissing commit (mem_cons_of_mem _ hcommit)

theorem started_skip (seen : LogCursor) :
    Started t mode tips shallow author (some seen) (newLogPagedWalk t tips mode shallow)
      (CursorGate.new (some seen)) := by
  by_cases hmem : seen.lastSeen ∈ t.walk tips mode shallow
  · obtain ⟨before, after, hwalk⟩ := append_of_mem hmem
    refine started_new after (.inl rfl) ⟨before ++ [seen.lastSeen], by rw [hwalk]; simp⟩ ?_
      (fun hnone => absurd hnone (Option.some_ne_none _)) ?_
    · rw [hwalk, map_append, map_cons]
      refine CursorGate.passed_cursor ?_ (t.object_id _)
      intro commit hcommit heq
      obtain ⟨id, hid, rfl⟩ := mem_map.mp hcommit
      rw [t.object_id] at heq
      have hnodup := t.walk_nodup tips mode shallow
      rw [hwalk] at hnodup
      exact (nodup_append.mp hnodup).2.2 id hid _ (heq ▸ mem_cons_self) rfl
    · rintro other hother rest hcontinues
      cases hother
      obtain ⟨front, hfront⟩ := hcontinues.inWalk
      exact after_unique (t.walk_nodup tips mode shallow) hwalk hfront
  · refine started_new [] (.inl rfl) ⟨t.walk tips mode shallow, (append_nil _).symm⟩ ?_
      (fun hnone => absurd hnone (Option.some_ne_none _)) ?_
    · refine passed_missing fun commit hcommit heq => hmem ?_
      obtain ⟨id, hid, rfl⟩ := mem_map.mp hcommit
      rw [t.object_id] at heq
      exact heq ▸ hid
    · rintro other hother rest hcontinues
      cases hother
      obtain ⟨front, hfront⟩ := hcontinues.inWalk
      exact absurd (hfront ▸ mem_append_right _ mem_cons_self) hmem

theorem started_resumed {parent : ObjectId} (hmode : mode = .firstParent)
    (htips : ∃ tip, tips = [tip]) (hhint : (t.object seen.lastSeen).parentIds.head? = some parent) :
    Started t mode tips shallow author (some seen) (newLogPagedWalk t [parent] mode shallow)
      CursorGate.opened := by
  refine started_new _ (.inr ⟨hmode, parent, rfl⟩) ⟨[], rfl⟩ (CursorGate.passed_started rfl _)
    (fun hnone => absurd hnone (Option.some_ne_none _)) ?_
  rintro other hother rest hcontinues
  cases hother
  obtain ⟨front, hfront⟩ := hcontinues.inWalk
  obtain ⟨tip, rfl⟩ := htips
  subst hmode
  obtain ⟨next, hnext, hwalk⟩ :=
    t.firstParent_resumes tip shallow front _ rest hfront hcontinues.after_ne
  obtain rfl : parent = next := Option.some.inj (hhint.symm.trans hnext)
  exact hwalk

variable {entry : LogPagedWalkCacheEntry}

theorem started_parked
    (htips : mode = .firstParent → ∃ tip, tips = [tip]) (hparked : ParkedAt t entry seen.lastSeen)
    (hmode : entry.mode = mode) (htip : entry.tips = tips) (hshallow : entry.shallow = shallow)
    (hauthor : entry.author = author) :
    Started t mode tips shallow author (some seen) entry.state CursorGate.opened := by
  subst hmode htip hshallow hauthor
  obtain ⟨line, before, after, hline, hsplit, hmore, hshow⟩ := hparked.line
  have hafter : after ≠ [] := by
    rintro rfl
    exact hmore rfl
  refine ⟨hparked.pending, fun _ => rfl, line, before ++ [seen.lastSeen], after, hline,
    by rw [hsplit]; simp, hshow, fun hnone => absurd hnone (Option.some_ne_none _), ?_⟩
  rintro other hother rest hcontinues
  cases hother
  obtain ⟨front, hfront⟩ := hcontinues.inWalk
  rw [hline.after_eq htips (.inl rfl) hsplit hfront hafter hcontinues.after_ne]

variable {walks : List LogPagedWalkCacheEntry} {state : LogPagedWalkState}

theorem takeLogPagedWalk_some {token : ℕ} {left : List LogPagedWalkCacheEntry}
    (htake : takeLogPagedWalk token mode tips shallow author walks = some (state, left)) :
    left.Sublist walks ∧ ∃ entry ∈ walks, entry.state = state ∧ entry.token = token ∧
      entry.mode = mode ∧ entry.tips = tips ∧ entry.shallow = shallow ∧ entry.author = author := by
  obtain ⟨entry, hentry, hpair⟩ := Option.map_eq_some_iff.mp htake
  obtain ⟨rfl, rfl⟩ := Prod.mk.inj hpair
  have hmatch := find?_some hentry
  simp only [isWalk, decide_eq_true_eq, Bool.decide_and, Bool.and_eq_true] at hmatch
  exact ⟨eraseP_sublist, entry, mem_of_find?_eq_some hentry, rfl, hmatch⟩

theorem startWalk_started (hsound : session.Sound t)
    (hcursor : ∀ seen ∈ cursor, seen ∈ session.issued)
    (htips : mode = .firstParent → ∃ tip, tips = [tip])
    {started : LogPagedWalkState × CursorGate × List LogPagedWalkCacheEntry}
    (hstart : startWalk t mode tips shallow cursor author session.caches.walks = started) :
    Started t mode tips shallow author cursor started.1 started.2.1 ∧
      started.2.2.Sublist session.caches.walks := by
  rw [startWalk] at hstart
  split at hstart
  · next state left htaken =>
    subst hstart
    obtain ⟨token, htoken, htake⟩ := Option.bind_eq_some_iff.mp htaken
    obtain ⟨seen, rfl, hresume⟩ := Option.bind_eq_some_iff.mp htoken
    obtain ⟨hleft, entry, hentry, rfl, rfl, hmode, htip, hshallow, hauthor⟩ :=
      takeLogPagedWalk_some htake
    have hparked := hsound.parked entry hentry seen (hcursor seen rfl) hresume
    exact ⟨started_parked htips hparked hmode htip hshallow hauthor, hleft⟩
  · split at hstart
    · next parent hparent =>
      subst hstart
      split_ifs at hparent with hmode
      obtain ⟨seen, rfl, hhint⟩ := Option.bind_eq_some_iff.mp hparent
      have hhead := hsound.hints seen (hcursor seen rfl) parent hhint
      exact ⟨started_resumed hmode (htips hmode) hhead, Sublist.refl _⟩
    · subst hstart
      cases cursor with
      | none => exact ⟨started_tips rfl, Sublist.refl _⟩
      | some seen => exact ⟨started_skip seen, Sublist.refl _⟩

theorem evictDateOrder_sublist (fuel : ℕ) (walks : List LogPagedWalkCacheEntry) :
    (evictDateOrder fuel walks).Sublist walks := by
  induction fuel generalizing walks with
  | zero => exact Sublist.refl _
  | succ fuel ih =>
    rw [evictDateOrder]
    split_ifs
    · exact (ih _).trans eraseP_sublist
    · exact Sublist.refl _

theorem makeRoom_sublist (dateOrder : Bool) (walks : List LogPagedWalkCacheEntry) :
    (makeRoom dateOrder walks).Sublist walks := by
  have hdrop : (if logPagedWalkCacheLimit ≤ walks.length then walks.drop 1 else walks).Sublist
      walks := by
    split_ifs
    · exact drop_sublist 1 walks
    · exact Sublist.refl _
  rw [makeRoom]
  split_ifs
  · exact (evictDateOrder_sublist _ _).trans (drop_sublist 1 walks)
  · exact evictDateOrder_sublist _ _
  · exact drop_sublist 1 walks
  · exact Sublist.refl _

theorem Session.Sound.fewer (hsound : session.Sound t)
    (hwalks : walks.Sublist session.caches.walks) :
    Session.Sound t ⟨{ session.caches with walks := walks }, session.issued⟩ where
  hints := hsound.hints
  tokens := hsound.tokens
  fresh := fun entry hentry => hsound.fresh entry (hwalks.subset hentry)
  parked := fun entry hentry => hsound.parked entry (hwalks.subset hentry)
  pages := hsound.pages

theorem Session.Sound.park
    (hsound : session.Sound t) (htoken : entry.token = session.caches.nextId)
    (hseen : seen.resumeToken = some session.caches.nextId)
    (hhint : ∀ parent ∈ seen.resumeFrom, (t.object seen.lastSeen).parentIds.head? = some parent)
    (hparked : ParkedAt t entry seen.lastSeen) :
    Session.Sound t ⟨{ session.caches with
      nextId := session.caches.nextId + 1, walks := session.caches.walks ++ [entry] },
      session.issued ++ [seen]⟩ where
  hints := by
    intro cursor hcursor
    rcases mem_append.mp hcursor with hcursor | hcursor
    · exact hsound.hints cursor hcursor
    · rw [mem_singleton.mp hcursor]
      exact hhint
  tokens := by
    intro cursor hcursor token htoken'
    rcases mem_append.mp hcursor with hcursor | hcursor
    · exact (hsound.tokens cursor hcursor token htoken').trans (lt_succ_self _)
    · rw [mem_singleton.mp hcursor, hseen] at htoken'
      rw [← Option.some.inj htoken']
      exact lt_succ_self _
  fresh := by
    intro other hother
    rcases mem_append.mp hother with hother | hother
    · exact (hsound.fresh other hother).trans (lt_succ_self _)
    · rw [mem_singleton.mp hother, htoken]
      exact lt_succ_self _
  parked := by
    intro other hother cursor hcursor hsame
    rcases mem_append.mp hother with hother | hother <;>
      rcases mem_append.mp hcursor with hcursor | hcursor
    · exact hsound.parked other hother cursor hcursor hsame
    · rw [mem_singleton.mp hcursor, hseen] at hsame
      exact absurd (Option.some.inj hsame) (hsound.fresh other hother).ne'
    · rw [mem_singleton.mp hother, htoken] at hsame
      exact absurd (hsound.tokens cursor hcursor _ hsame) (lt_irrefl _)
    · rw [mem_singleton.mp hother, mem_singleton.mp hcursor]
      exact hparked
  pages := by
    intro entry hentry
    obtain ⟨hright, hissued⟩ := hsound.pages entry hentry
    exact ⟨hright, fun cursor hcursor => mem_append_left _ (hissued cursor hcursor)⟩

theorem PageOf.right {shown : List Commit} {limit : ℕ} {page : LogPage}
    (hpage : PageOf limit shown page) {state : LogPagedWalkState} {gate : CursorGate}
    (hstarted : Started t mode tips shallow author cursor state gate)
    (hshown : toShow mode author state gate = shown) :
    PageRight t mode tips shallow author limit (cursor.map (·.lastSeen)) page := by
  obtain ⟨line, before, after, hline, hsplit, hshow, hfirst, hrest⟩ := hstarted.line
  rw [hshow] at hshown
  cases cursor with
  | none =>
    have hwalk := hfirst rfl
    rw [hwalk] at hshown
    subst hshown
    exact hpage
  | some seen =>
    intro rest hcontinues
    rw [hrest seen rfl rest hcontinues] at hshown
    subst hshown
    exact hpage

variable {built : PageBuild}

theorem parkedAt_of_more
    (hstarted : Started t mode tips shallow author cursor state gate) (hlimit : 0 < limit)
    (hbuilt : PageBuilt mode author limit (toShow mode author state gate) built)
    (hmore : built.hasMore) (token : ℕ) (dateOrder : Bool) :
    ∃ commit, built.commits.getLast? = some commit ∧ t.object commit.id = commit ∧
      ParkedAt t ⟨token, mode, tips, shallow, author, built.state, dateOrder⟩ commit.id := by
  obtain ⟨line, before, after, hline, hsplit, hshow, -, -⟩ := hstarted.line
  have hlength := hmore
  rw [hbuilt.hasMore, decide_eq_true_eq, hshow, matching, length_map] at hlength
  obtain ⟨front, last, post, hafter, htake, hdrop⟩ :=
    split_at_match (selects t mode author) hlimit hlength
  have hpost : matching t mode author post = (matching t mode author after).drop limit := by
    rw [matching, hdrop, map_drop, matching]
  refine ⟨t.object last, ?_, ?_,
    ⟨hbuilt.parked hmore, line, before ++ front, post, hline, ?_, ?_, ?_⟩⟩
  · rw [hbuilt.commits, hshow, matching, ← map_take, getLast?_map, htake]
    rfl
  · rw [t.object_id]
  · rw [hsplit, hafter, t.object_id, append_assoc]
  · rw [hpost, ne_eq, drop_eq_nil_iff, not_le, matching, length_map]
    exact hlength
  · rw [hbuilt.rest hmore, hshow, hpost]

theorem pageOf_built {shown : List Commit}
    (hbuilt : PageBuilt mode author limit shown built) {next : Option LogCursor}
    (hnext : next.isSome = built.hasMore)
    (hseen : ∀ seen ∈ next, ∃ commit, built.commits.getLast? = some commit ∧
      commit.id = seen.lastSeen) : PageOf limit shown ⟨built.commits, next⟩ where
  commits := hbuilt.commits
  more_iff := by rw [hnext, hbuilt.hasMore, decide_eq_true_eq]
  lastSeen := hseen

theorem logPagedPage_sound (hsound : session.Sound t)
    (hcursor : ∀ seen ∈ cursor, seen ∈ session.issued)
    (htips : tips ≠ [] → mode = .firstParent → ∃ tip, tips = [tip]) (hlimit : 0 < limit)
    {paged : LogPage × LogCaches}
    (hpaged : logPagedPage t mode tips shallow limit cursor author session.caches = paged) :
    Session.Sound t ⟨paged.2, session.issued ++ paged.1.nextCursor.toList⟩ ∧
      paged.2.pages = session.caches.pages ∧
      PageRight t mode tips shallow author limit (cursor.map (·.lastSeen)) paged.1 := by
  rw [logPagedPage] at hpaged
  split_ifs at hpaged with hempty
  · obtain rfl := List.isEmpty_iff.mp hempty
    subst hpaged
    refine ⟨by simpa [emptyLogPage] using hsound, rfl, ?_⟩
    cases cursor with
    | none =>
      have hnothing : matching t mode author (t.walk [] mode shallow) = [] := by
        rw [t.walk_nil]
        rfl
      refine ⟨?_, ?_, fun seen hseen => absurd hseen (by simp [emptyLogPage])⟩
      · rw [hnothing, take_nil]
        rfl
      · rw [hnothing]
        simp [emptyLogPage]
    | some seen =>
      intro rest hcontinues
      obtain ⟨front, hfront⟩ := hcontinues.inWalk
      rw [t.walk_nil] at hfront
      exact absurd hfront.symm (by simp)
  · dsimp only at hpaged
    generalize hstart : startWalk t mode tips shallow cursor author session.caches.walks =
      started at hpaged
    obtain ⟨hstarted, hwalks⟩ := startWalk_started hsound hcursor
      (htips fun hnil => hempty (by rw [hnil]; rfl)) hstart
    have hbuilt : PageBuilt mode author limit (toShow mode author started.1 started.2.1) _ :=
      logPageFromPagedWalkState_built mode author hstarted.pending hstarted.opened
    generalize logPageFromPagedWalkState mode author limit started.1 started.2.1 = built
      at hbuilt hpaged
    cases hmore : built.hasMore with
    | false =>
      rw [hmore, if_neg Bool.false_ne_true] at hpaged
      subst hpaged
      refine ⟨by simpa using hsound.fewer hwalks, rfl, ?_⟩
      have hpage : PageOf limit _ ⟨built.commits, none⟩ :=
        pageOf_built hbuilt (by rw [hmore]; rfl) fun seen hseen => absurd hseen (by simp)
      exact hpage.right hstarted rfl
    | true =>
      obtain ⟨commit, hlast, hobject, hparked⟩ := parkedAt_of_more hstarted hlimit hbuilt hmore
        session.caches.nextId (t.isDateOrder tips mode shallow)
      rw [hmore, if_pos rfl, hlast] at hpaged
      subst hpaged
      refine ⟨?_, rfl, ?_⟩
      · refine (hsound.fewer ((makeRoom_sublist _ _).trans hwalks)).park rfl rfl ?_ hparked
        intro parent hparent
        rw [hobject]
        simp only [firstParentResumeHint] at hparent
        split_ifs at hparent
        · exact hparent
        · cases hparent
      · refine (pageOf_built hbuilt (by rw [hmore]; rfl) ?_).right hstarted rfl
        rintro seen hseen
        cases hseen
        exact ⟨commit, hlast, rfl⟩

end

section

theorem moveToEnd_subset (key : LogPageCacheKey) (pages : List LogPageCacheEntry) :
    moveToEnd key pages ⊆ pages := by
  intro entry hentry
  rw [moveToEnd] at hentry
  split at hentry
  · exact hentry
  · next found hfound =>
    rcases mem_append.mp hentry with hentry | hentry
    · exact eraseP_subset hentry
    · rw [mem_singleton.mp hentry]
      exact mem_of_find?_eq_some hfound

variable {key : LogPageCacheKey} {pages : List LogPageCacheEntry} {page : LogPage}

theorem cachedLogPage_some {left : List LogPageCacheEntry}
    (hcached : cachedLogPage key pages = some (page, left)) :
    left ⊆ pages ∧ ⟨key, page⟩ ∈ pages := by
  obtain ⟨entry, hentry, hpair⟩ := Option.map_eq_some_iff.mp hcached
  have hmem := mem_of_find?_eq_some hentry
  have hkey : entry.key = key := of_decide_eq_true (find?_some hentry :)
  have hleft : entry.page = page ∧ left ⊆ pages := by
    dsimp only at hpair
    split at hpair
    · obtain ⟨rfl, rfl⟩ := Prod.mk.inj hpair
      exact ⟨rfl, moveToEnd_subset key pages⟩
    · obtain ⟨rfl, rfl⟩ := Prod.mk.inj hpair
      exact ⟨rfl, Subset.trans (moveToEnd_subset _ _) (moveToEnd_subset key pages)⟩
  refine ⟨hleft.2, ?_⟩
  rw [← hkey, ← hleft.1]
  exact hmem

theorem evictPages_sublist (incoming : ℕ) (pages : List LogPageCacheEntry) :
    (evictPages incoming pages).Sublist pages := by
  induction pages with
  | nil => exact Sublist.refl _
  | cons entry pages ih =>
    rw [evictPages]
    split_ifs
    · exact ih.trans (sublist_cons_self _ _)
    · exact Sublist.refl _

theorem storeLogPage_mem {entry : LogPageCacheEntry}
    (hentry : entry ∈ storeLogPage key page pages) : entry ∈ pages ∨ entry = ⟨key, page⟩ := by
  rw [storeLogPage] at hentry
  split_ifs at hentry
  · exact .inl hentry
  · rcases mem_append.mp hentry with hentry | hentry
    · exact .inl (eraseP_subset ((evictPages_sublist _ _).subset hentry))
    · exact .inr (mem_singleton.mp hentry)

variable (t)

def Session.afterPage (session : Session) (mode : HistoryMode) (author : Option (List Char))
    (limit : ℕ) (cursor : Option LogCursor) (refs : LogRefs) : Session :=
  let paged := logHistoryModePage t mode author limit cursor refs session.caches
  ⟨paged.2, session.issued ++ paged.1.nextCursor.toList⟩

inductive SessionStep : Session → Session → Prop
  | page {session : Session} (mode : HistoryMode) (author : Option (List Char)) (limit : ℕ)
    (cursor : Option LogCursor) (refs : LogRefs)
    (hcursor : ∀ seen ∈ cursor, seen ∈ session.issued) :
    SessionStep session (session.afterPage t mode author limit cursor refs)
  | lost {session : Session} {pages : List LogPageCacheEntry}
    {walks : List LogPagedWalkCacheEntry} (hpages : pages.Sublist session.caches.pages)
    (hwalks : walks.Sublist session.caches.walks) :
    SessionStep session ⟨⟨pages, session.caches.nextId, walks⟩, session.issued⟩

abbrev SessionRun : Session → Session → Prop := Relation.ReflTransGen (SessionStep t)

def Session.start : Session := ⟨⟨[], 0, []⟩, []⟩

variable {t}

theorem pageSeed_firstParent {refs : LogRefs} :
    (pageSeed .firstParent refs).tipIds ≠ [] →
      ∃ tip, (pageSeed .firstParent refs).tipIds = [tip] := by
  rw [pageSeed, if_neg (by decide)]
  cases refs.head with
  | none => exact fun hne => absurd rfl hne
  | some tip => exact fun _ => ⟨tip, rfl⟩

theorem logHistoryModePage_sound {session : Session} (hsound : session.Sound t) (mode : HistoryMode)
    (author : Option (List Char)) (refs : LogRefs) {cursor : Option LogCursor}
    (hcursor : ∀ seen ∈ cursor, seen ∈ session.issued) (hlimit : 0 < limit) :
    Session.Sound t (session.afterPage t mode author limit cursor refs) ∧
      PageRight t mode (pageSeed mode refs).tipIds refs.shallow (AuthorFilter.new author) limit
        (cursor.map (·.lastSeen))
        (logHistoryModePage t mode author limit cursor refs session.caches).1 := by
  rw [Session.afterPage, logHistoryModePage, if_neg hlimit.ne']
  dsimp only
  split
  · next page left hcached =>
    obtain ⟨hleft, hmem⟩ := cachedLogPage_some hcached
    obtain ⟨hright, hissued⟩ := hsound.pages _ hmem
    have hknown : ∀ seen ∈ session.issued ++ page.nextCursor.toList, seen ∈ session.issued := by
      intro seen hseen
      rcases mem_append.mp hseen with hseen | hseen
      · exact hseen
      · exact hissued seen (Option.mem_toList.mp hseen)
    refine ⟨⟨fun seen hseen => hsound.hints seen (hknown seen hseen),
      fun seen hseen => hsound.tokens seen (hknown seen hseen), hsound.fresh,
      fun entry hentry seen hseen => hsound.parked entry hentry seen (hknown seen hseen),
      fun entry hentry => ?_⟩, hright⟩
    obtain ⟨hentryRight, hentryIssued⟩ := hsound.pages entry (hleft hentry)
    exact ⟨hentryRight, fun seen hseen => mem_append_left _ (hentryIssued seen hseen)⟩
  · have htips : (pageSeed mode refs).tipIds ≠ [] → mode = .firstParent →
        ∃ tip, (pageSeed mode refs).tipIds = [tip] := by
      rintro hne rfl
      exact pageSeed_firstParent hne
    obtain ⟨hpaged, hpages, hright⟩ := logPagedPage_sound hsound hcursor htips hlimit rfl
    refine ⟨⟨hpaged.hints, hpaged.tokens, hpaged.fresh, hpaged.parked, fun entry hentry => ?_⟩,
      hright⟩
    rcases storeLogPage_mem hentry with hold | hnew
    · exact hpaged.pages entry hold
    · rw [hnew]
      refine ⟨hright, fun seen hseen => mem_append_right _ ?_⟩
      exact Option.mem_toList.mpr hseen

variable {session' : Session}

theorem SessionStep.sound {session : Session} (hstep : SessionStep t session session')
    (hsound : session.Sound t) : session'.Sound t := by
  cases hstep with
  | page mode author limit cursor refs hcursor =>
    by_cases hlimit : limit = 0
    · rw [Session.afterPage, logHistoryModePage, if_pos hlimit]
      simpa [emptyLogPage] using hsound
    · exact (logHistoryModePage_sound hsound mode author refs hcursor (Nat.pos_of_ne_zero hlimit)).1
  | lost hpages hwalks =>
    have hfewer := hsound.fewer hwalks
    exact ⟨hfewer.hints, hfewer.tokens, hfewer.fresh, hfewer.parked,
      fun entry hentry => hsound.pages entry (hpages.subset hentry)⟩

theorem SessionRun.sound {session : Session} (hrun : SessionRun t session session')
    (hsound : session.Sound t) : session'.Sound t := by
  induction hrun with
  | refl => exact hsound
  | tail _ hstep ih => exact hstep.sound ih

theorem sound_start : Session.start.Sound t where
  hints := fun _ hseen => absurd hseen not_mem_nil
  tokens := fun _ hseen => absurd hseen not_mem_nil
  fresh := fun _ hentry => absurd hentry not_mem_nil
  parked := fun _ hentry => absurd hentry not_mem_nil
  pages := fun _ hentry => absurd hentry not_mem_nil

theorem SessionStep.issued_subset {session : Session}
    (hstep : SessionStep t session session') : session.issued ⊆ session'.issued := by
  cases hstep with
  | page => exact subset_append_left _ _
  | lost => exact Subset.refl _

theorem SessionRun.issued_subset {session : Session}
    (hrun : SessionRun t session session') : session.issued ⊆ session'.issued := by
  induction hrun with
  | refl => exact Subset.refl _
  | tail _ hstep ih => exact Subset.trans ih hstep.issued_subset

end

end GitComet.LogPages
