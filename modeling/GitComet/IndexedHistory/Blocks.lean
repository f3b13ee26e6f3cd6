import GitComet.IndexedHistory.Reduce

variable {snapshot : HistorySnapshot} {after : IndexedHistoryState}

variable {index : HistoryIndexHandle}

namespace GitComet.IndexedHistory
open RecentCache Text List Option Nat

structure DesiredBlocks (desired : List ℕ) : Prop where
  nodup : desired.Nodup
  few : desired.length ≤ cachedBlocks
  aligned : ∀ start ∈ desired, start % historyBlockSize = 0

structure IndexedHistoryState.Sound (h : IndexedHistoryState) : Prop where
  pending_few : h.pending.keys.length ≤ 2
  pending_desired : ∀ start ∈ h.pending, start ∈ h.desired ∧ start ∉ h.ranges
  desired : DesiredBlocks h.desired
  tracks : Tracks h.ranges h.lru
  few : h.ranges.keys.length ≤ cachedBlocks
  aligned : ∀ start ∈ h.ranges, start % historyBlockSize = 0
  exact : ∀ start range, h.ranges.lookup start = some range → ∃ index, h.rangeIndex = some index ∧
    ∀ offset commit, range.commits[offset]? = some commit →
      index.rowMatchesHexId (start + offset) commit.id = true
  indexed : h.rangeIndex = none → h.desired = []

def IndexedHistoryState.Served (h : IndexedHistoryState) : Prop :=
  ∀ start ∈ h.desired, start ∈ h.ranges ∨ start ∈ h.pending ∨ start ∈ h.rangeErrors ∨
    h.pending.keys.length = 2

structure IndexedHistoryState.Spares (h after : IndexedHistoryState) : Prop where
  cached : after.rangeIndex = h.rangeIndex → ∀ start ∈ after.desired, ∀ range,
    h.ranges.lookup start = some range → after.ranges.lookup start = some range

variable {desired : List ℕ}

section

theorem DesiredBlocks.nil : DesiredBlocks [] where
  nodup := nodup_nil
  few := zero_le _
  aligned _ h := absurd h not_mem_nil

theorem desired_fold (index : HistoryIndexHandle) (blocks : List ℕ)
    (hnodup : desired.Nodup) (haligned : ∀ start ∈ desired, start % historyBlockSize = 0) :
    let next := blocks.foldl (fun desired block =>
      if block < index.len ∧ block % historyBlockSize = 0 ∧ ¬desired.contains block then
        desired ++ [block]
      else desired) desired
    next.Nodup ∧ next.length ≤ desired.length + blocks.length ∧
      ∀ start ∈ next, start % historyBlockSize = 0 := by
  induction blocks generalizing desired with
  | nil => exact ⟨hnodup, le_refl _, haligned⟩
  | cons block blocks ih =>
    rw [foldl_cons]
    split_ifs with hblock
    · have hfresh : block ∉ desired := by simpa using hblock.2.2
      have hgrown : (desired ++ [block]).Nodup := nodup_append.mpr
        ⟨hnodup, nodup_singleton block, fun a ha b hb heq =>
          hfresh (by rwa [← mem_singleton.mp hb, ← heq])⟩
      obtain ⟨h, hlen, hall⟩ := ih hgrown
        (fun start hstart => (mem_append.mp hstart).elim (haligned start)
          fun hlast => by rw [mem_singleton.mp hlast]; exact hblock.2.1)
      refine ⟨h, ?_, hall⟩
      rw [length_append, length_singleton] at hlen
      rw [length_cons]
      omega
    · obtain ⟨h, hlen, hall⟩ := ih hnodup haligned
      exact ⟨h, by rw [length_cons]; omega, hall⟩

theorem desiredBlocks_desired (index : HistoryIndexHandle) (blocks : List ℕ) :
    DesiredBlocks (IndexedHistoryState.desiredBlocks index blocks) := by
  obtain ⟨hnodup, hlen, haligned⟩ := desired_fold index (blocks.take cachedBlocks)
    nodup_nil fun _ h => absurd h not_mem_nil
  refine ⟨hnodup, hlen.trans ?_, haligned⟩
  rw [length_nil, zero_add]
  exact length_take_le _ _

end

namespace IndexedHistoryState

section
variable {h : IndexedHistoryState}

variable {row : ℕ}

theorem commit_eq_some {commit : Commit}
    (hcommit : h.commit snapshot row = some commit) : ∃ index range, h.rangeIndex = some index ∧
      index.snapshot = snapshot ∧ h.ranges.lookup (blockOf row) = some range ∧
      range.commits[row - blockOf row]? = some commit := by
  rw [IndexedHistoryState.commit] at hcommit
  split_ifs at hcommit with hother
  obtain ⟨range, hrange, hrow⟩ := bind_eq_some_iff.mp hcommit
  cases hindex : h.rangeIndex with
  | none =>
    rw [hindex] at hother
    exact absurd rfl hother
  | some index =>
    rw [hindex] at hother
    exact ⟨index, range, rfl, by simpa using hother, hrange, hrow⟩

theorem rowMatchesHexId_iff {id : Loading.CommitId} :
    index.rowMatchesHexId row id ↔
      ∃ bytes, index.table.idBytes row = some bytes ∧ Hex.decode id.toList = some bytes := by
  rw [HistoryIndexHandle.rowMatchesHexId, Option.any_eq_true]
  exact exists_congr fun bytes => and_congr_right fun _ => Hex.matchesHex_iff

theorem blockOf_le (row : ℕ) : blockOf row ≤ row := div_mul_le_self row historyBlockSize

theorem Sound.commit (hsound : h.Sound) {commit : Commit}
    (hcommit : h.commit snapshot row = some commit) : ∃ index, h.rangeIndex = some index ∧
      index.snapshot = snapshot ∧ ∃ bytes, index.table.idBytes row = some bytes ∧
        Hex.decode commit.id.toList = some bytes := by
  obtain ⟨index, range, hindex, hsnapshot, hrange, hrow⟩ := commit_eq_some hcommit
  obtain ⟨found, hfound, hrows⟩ := hsound.exact _ _ hrange
  obtain rfl := some.inj (hindex.symm.trans hfound)
  have hmatches := hrows _ _ hrow
  rw [Nat.add_sub_cancel' (blockOf_le row)] at hmatches
  exact ⟨index, hindex, hsnapshot, rowMatchesHexId_iff.mp hmatches⟩

end

section
variable {h : IndexedHistoryState}

theorem default_sound : IndexedHistoryState.default.Sound where
  pending_few := zero_le _
  pending_desired _ hstart := absurd hstart (AList.notMem_empty _)
  desired := DesiredBlocks.nil
  tracks := Tracks.empty
  few := zero_le _
  aligned _ hstart := absurd hstart (AList.notMem_empty _)
  exact start range hrange := by
    rw [show IndexedHistoryState.default.ranges = ∅ from rfl, AList.lookup_empty] at hrange
    cases hrange
  indexed _ := rfl

theorem served_of_desired_nil (hnil : h.desired = []) : h.Served := by
  intro start hstart
  rw [hnil] at hstart
  exact absurd hstart not_mem_nil

structure SameCache (h after : IndexedHistoryState) : Prop where
  rangeIndex : after.rangeIndex = h.rangeIndex
  ranges : after.ranges = h.ranges
  rangeErrors : after.rangeErrors = h.rangeErrors
  desired : after.desired = h.desired
  pending : after.pending = h.pending
  lru : after.lru = h.lru

theorem SameCache.refl (h : IndexedHistoryState) : SameCache h h := ⟨rfl, rfl, rfl, rfl, rfl, rfl⟩

theorem SameCache.ofEq (heq : after = h) : SameCache h after := by
  rw [heq]
  exact .refl h

theorem SameCache.trans {mid : IndexedHistoryState} (hmid : SameCache h mid)
    (hafter : SameCache mid after) : SameCache h after where
  rangeIndex := hafter.rangeIndex.trans hmid.rangeIndex
  ranges := hafter.ranges.trans hmid.ranges
  rangeErrors := hafter.rangeErrors.trans hmid.rangeErrors
  desired := hafter.desired.trans hmid.desired
  pending := hafter.pending.trans hmid.pending
  lru := hafter.lru.trans hmid.lru

theorem SameCache.sound (hsame : SameCache h after) (hsound : h.Sound) : after.Sound where
  pending_few := by rw [hsame.pending]; exact hsound.pending_few
  pending_desired := by
    rw [hsame.pending, hsame.desired, hsame.ranges]
    exact hsound.pending_desired
  desired := by rw [hsame.desired]; exact hsound.desired
  tracks := by rw [hsame.ranges, hsame.lru]; exact hsound.tracks
  few := by rw [hsame.ranges]; exact hsound.few
  aligned := by rw [hsame.ranges]; exact hsound.aligned
  exact := by rw [hsame.ranges, hsame.rangeIndex]; exact hsound.exact
  indexed := by rw [hsame.rangeIndex, hsame.desired]; exact hsound.indexed

theorem SameCache.served (hsame : SameCache h after) (hserved : h.Served) : after.Served := by
  rw [Served, hsame.pending, hsame.desired, hsame.ranges, hsame.rangeErrors]
  exact hserved

theorem SameCache.spares (hsame : SameCache h after) : h.Spares after :=
  ⟨fun _ _ _ _ hrange => by rw [hsame.ranges]; exact hrange⟩

theorem Sound.cancel (hsound : h.Sound) : h.cancel.Sound :=
  { hsound with
    pending_few := zero_le _
    pending_desired := fun _ hstart => absurd hstart (AList.notMem_empty _) }

theorem Sound.switchRanges (hsound : h.Sound) (index : HistoryIndexHandle) :
    (h.switchRanges index).Sound where
  pending_few := zero_le _
  pending_desired _ hstart := absurd hstart (AList.notMem_empty _)
  desired := hsound.desired
  tracks := Tracks.empty
  few := zero_le _
  aligned _ hstart := absurd hstart (AList.notMem_empty _)
  exact start range hrange := by
    rw [show (h.switchRanges index).ranges = ∅ from rfl, AList.lookup_empty] at hrange
    cases hrange
  indexed hnone := absurd hnone (some_ne_none _)

theorem touchDesired_tracks (hsound : Tracks h.ranges h.lru) (desired : List ℕ) :
    Tracks h.ranges (h.touchDesired desired) := by
  rw [touchDesired]
  generalize h.lru = lru at hsound
  induction desired generalizing lru with
  | nil => exact hsound
  | cons start desired ih =>
    rw [foldl_cons]
    split_ifs with hcached
    · exact ih _ (hsound.touch (AList.lookup_isSome.mp hcached))
    · exact ih _ hsound

theorem Sound.demand (hsound : h.Sound) (hdesired : DesiredBlocks desired)
    (retry : Bool) (hindex : h.rangeIndex ≠ none) : (h.demand desired retry).Sound where
  pending_few := (retain_keys_length _ _).trans hsound.pending_few
  pending_desired start hstart := by
    obtain ⟨hpending, hwanted⟩ := mem_retain.mp hstart
    exact ⟨contains_iff_mem.mp hwanted, (hsound.pending_desired start hpending).2⟩
  desired := hdesired
  tracks := touchDesired_tracks hsound.tracks desired
  few := hsound.few
  aligned := hsound.aligned
  exact := hsound.exact
  indexed hnone := absurd hnone hindex

end

end IndexedHistoryState

end GitComet.IndexedHistory

namespace GitComet.IndexedHistory
open RecentCache Text Loading Selection

namespace IndexedHistoryState

variable {h : IndexedHistoryState}

section

theorem requested_snapshot (hindex : (h.index.filter fun index => index.snapshot == snapshot).or
      (h.rangeIndex.filter fun index => index.snapshot == snapshot) = some index) :
    index.snapshot = snapshot := by
  rcases Option.or_eq_some_iff.mp hindex with hfound | ⟨-, hfound⟩
  · exact eq_of_beq (Option.filter_eq_some_iff.mp hfound).2
  · exact eq_of_beq (Option.filter_eq_some_iff.mp hfound).2

theorem requestRanges_sound (hsound : h.Sound) {blocks : List ℕ} {retry : Bool}
    (hafter : h.requestRanges snapshot blocks retry = some after) :
    after.Sound ∧ h.Spares after := by
  rw [requestRanges] at hafter
  cases hindex : (h.index.filter fun index => index.snapshot == snapshot).or
      (h.rangeIndex.filter fun index => index.snapshot == snapshot) with
  | none =>
    rw [hindex] at hafter
    cases hafter
  | some index =>
    rw [hindex] at hafter
    cases hafter
    split_ifs with hother
    · refine ⟨(hsound.switchRanges index).demand (desiredBlocks_desired index blocks) retry
        (Option.some_ne_none index), ⟨fun hsame _ _ _ _ => ?_⟩⟩
      have hnew : some index = h.rangeIndex := hsame
      rw [← hnew, Option.all_some, bne_iff_ne] at hother
      exact absurd (requested_snapshot hindex) hother
    · have hsome : h.rangeIndex ≠ none := by
        intro hnone
        rw [hnone] at hother
        exact hother rfl
      exact ⟨hsound.demand (desiredBlocks_desired index blocks) retry hsome,
        ⟨fun _ _ _ _ hrange => hrange⟩⟩

variable {range : HistoryRange}

theorem accepts_exact {start : ℕ}
    (haccepts : h.accepts range snapshot start) : ∃ index, h.rangeIndex = some index ∧
      ∀ offset commit, range.commits[offset]? = some commit →
        index.rowMatchesHexId (start + offset) commit.id := by
  simp only [accepts, Bool.and_eq_true, Option.any_eq_true, List.all_eq_true] at haccepts
  obtain ⟨-, index, hindex, -, hrows⟩ := haccepts
  exact ⟨index, hindex, fun offset commit hcommit =>
    hrows (commit, offset) (List.mk_mem_zipIdx_iff_getElem?.mpr hcommit)⟩

theorem kept_few (hdesired : DesiredBlocks h.desired) {order : List ℕ} (hnodup : order.Nodup) :
    (order.filter h.keptDesired).length ≤ cachedBlocks :=
  ((List.subperm_of_subset (hnodup.filter _) fun _ hstart =>
    List.contains_iff_mem.mp (List.mem_filter.mp hstart).2).length_le).trans hdesired.few

theorem evicted_mem {kept : ℕ → Bool} {entries after : Entries ℕ HistoryRange}
    (hevicted : Evicted kept entries after) {start : ℕ} (hstart : start ∈ after) :
    start ∈ entries := by
  obtain ⟨range, hrange⟩ := Option.isSome_iff_exists.mp (AList.lookup_isSome.mpr hstart)
  exact AList.lookup_isSome.mp (Option.isSome_of_mem (hevicted.subset start range hrange))

structure Answered (h : IndexedHistoryState) (start : ℕ) : Prop where
  sound : h.Sound
  fewer : h.pending.keys.length ≤ 1
  notPending : start ∉ h.pending
  wanted : start ∈ h.desired
  missing : start ∉ h.ranges

theorem answered (hsound : h.Sound) {start : ℕ} (hstart : start ∈ h.pending) :
    Answered { h with pending := h.pending.erase start } start where
  sound :=
    { hsound with
      pending_few := by
        have hlen := keys_length_erase hstart
        have hfew := hsound.pending_few
        dsimp only
        omega
      pending_desired := fun other hother =>
        hsound.pending_desired other (AList.mem_erase.mp hother).2 }
  fewer := by
    have hlen := keys_length_erase hstart
    have hfew := hsound.pending_few
    dsimp only
    omega
  notPending hmem := (AList.mem_erase.mp hmem).1 rfl
  wanted := (hsound.pending_desired start hstart).1
  missing := (hsound.pending_desired start hstart).2

theorem Answered.install {start : ℕ} (hanswered : Answered h start)
    (haccepts : h.accepts range snapshot start) :
    ∃ after, h.install start range = some after ∧ after.Sound ∧ h.Spares after := by
  have hsound := hanswered.sound
  have htracks := hsound.tracks.insert start range
  have hfuel : ((h.ranges.insert start range).keys.length - cachedBlocks) *
      (h.ranges.insert start range).keys.length < evictionFuel (h.ranges.insert start range) :=
    lt_of_le_of_lt (Nat.mul_le_mul_right _ (Nat.sub_le _ _))
      (Nat.mul_lt_mul_of_lt_of_le (Nat.lt_succ_self _) (Nat.le_succ _) (Nat.succ_pos _))
  obtain ⟨ranges, lru, hevict, htracked, hfew, hevicted⟩ :=
    evict_ends (kept_few hsound.desired htracks.nodup) htracks hfuel
  refine ⟨{ h with ranges := ranges, lru := lru }, ?_, ?_, ⟨fun _ other hother old hold => ?_⟩⟩
  · rw [IndexedHistoryState.install, hevict]
    rfl
  · refine { hsound with
      pending_desired := fun other hother =>
        ⟨(hsound.pending_desired other hother).1, fun hcached => ?_⟩
      tracks := htracked
      few := hfew
      aligned := fun other hother => ?_
      exact := fun other old hold => ?_ }
    · rcases (AList.mem_insert _).mp (evicted_mem hevicted hcached) with rfl | hcached
      · exact hanswered.notPending hother
      · exact (hsound.pending_desired other hother).2 hcached
    · rcases (AList.mem_insert _).mp (evicted_mem hevicted hother) with rfl | hcached
      · exact hsound.desired.aligned other hanswered.wanted
      · exact hsound.aligned other hcached
    · have hbefore := hevicted.subset other old hold
      rcases eq_or_ne other start with rfl | hne
      · rw [AList.lookup_insert] at hbefore
        cases hbefore
        exact accepts_exact haccepts
      · rw [AList.lookup_insert_ne hne] at hbefore
        exact hsound.exact other old hbefore
  · have hne : other ≠ start := by
      rintro rfl
      exact hanswered.missing (AList.lookup_isSome.mp (Option.isSome_of_mem hold))
    rw [hevicted.spared other (List.contains_iff_mem.mpr hother), AList.lookup_insert_ne hne]
    exact hold

theorem Answered.fail {start : ℕ} (hanswered : Answered h start) (message : String) :
    (h.fail start message).Sound ∧ h.Spares (h.fail start message) :=
  ⟨{ hanswered.sound with }, ⟨fun _ _ _ _ hrange => hrange⟩⟩

theorem Answered.settle {start : ℕ} (hanswered : Answered h start) (snapshot : HistorySnapshot)
    (result : Except String HistoryRange) :
    ∃ after, h.settle snapshot start result = some after ∧ after.Sound ∧ h.Spares after := by
  cases result with
  | error message => exact ⟨_, rfl, hanswered.fail message⟩
  | ok range =>
    rw [IndexedHistoryState.settle]
    split_ifs with haccepts
    · exact hanswered.install haccepts
    · exact ⟨_, rfl, hanswered.fail _⟩

end

section

variable {start : ℕ}

theorem served_iff : h.served start ↔
    start ∈ h.pending ∨ start ∈ h.ranges ∨ start ∈ h.rangeErrors := by
  simp only [served, Bool.or_eq_true, AList.lookup_isSome, or_assoc]

theorem Sound.startRange (hsound : h.Sound) (hstart : start ∈ h.desired)
    (hserved : ¬h.served start) (hfew : ¬2 ≤ h.pending.keys.length) :
    (h.startRange start).Sound :=
  { hsound with
    pending_few := (keys_length_insert_le _).trans (by omega)
    pending_desired := fun other hother => by
      rcases (AList.mem_insert _).mp hother with rfl | hother
      · exact ⟨hstart, fun hcached => hserved (served_iff.mpr (Or.inr (Or.inl hcached)))⟩
      · exact hsound.pending_desired other hother }

theorem startRanges_sound (repoId : RepoId) (index : HistoryIndexHandle) (desired : List ℕ)
    (hsound : h.Sound) (hdesired : ∀ start ∈ desired, start ∈ h.desired) :
    let after := (startRanges repoId index desired h).1
    after.Sound ∧ after.ranges = h.ranges ∧ after.rangeErrors = h.rangeErrors ∧
      after.desired = h.desired ∧ after.rangeIndex = h.rangeIndex ∧
      (∀ start ∈ h.pending, start ∈ after.pending) ∧
      ∀ start ∈ desired, start ∈ h.ranges ∨ start ∈ after.pending ∨ start ∈ h.rangeErrors ∨
        after.pending.keys.length = 2 := by
  induction desired generalizing h with
  | nil =>
    exact ⟨hsound, rfl, rfl, rfl, rfl, fun _ hstart => hstart,
      fun start hstart => absurd hstart List.not_mem_nil⟩
  | cons start desired ih =>
    have hrest : ∀ other ∈ desired, other ∈ h.desired := fun other hother =>
      hdesired other (List.mem_cons_of_mem start hother)
    rw [startRanges]
    split_ifs with hfull hserved
    · exact ⟨hsound, rfl, rfl, rfl, rfl, fun _ hpending => hpending, fun other _ =>
        Or.inr (Or.inr (Or.inr (le_antisymm hsound.pending_few hfull)))⟩
    · obtain ⟨hafter, hranges, herrors, hwanted, hindex, hkept, hall⟩ := ih hsound hrest
      refine ⟨hafter, hranges, herrors, hwanted, hindex, hkept, fun other hother => ?_⟩
      rcases List.mem_cons.mp hother with rfl | hother
      · rcases served_iff.mp hserved with hpending | hcached | hfailed
        · exact Or.inr (Or.inl (hkept other hpending))
        · exact Or.inl hcached
        · exact Or.inr (Or.inr (Or.inl hfailed))
      · exact hall other hother
    · have hstarted := hsound.startRange (hdesired start List.mem_cons_self) hserved hfull
      obtain ⟨hafter, hranges, herrors, hwanted, hindex, hkept, hall⟩ := ih hstarted hrest
      refine ⟨hafter, hranges, herrors, hwanted, hindex, fun other hother =>
        hkept other ((AList.mem_insert _).mpr (Or.inr hother)), fun other hother => ?_⟩
      rcases List.mem_cons.mp hother with rfl | hother
      · exact Or.inr (Or.inl (hkept other ((AList.mem_insert _).mpr (Or.inl rfl))))
      · exact hall other hother

end

end IndexedHistoryState

end GitComet.IndexedHistory
