import GitComet.Store.Loads

namespace GitComet.Store
open RepoLoadsInFlight List Option

structure RefreshLane where
  bit : ℕ
  inside : bit < 32
  apart : bit ≠ 19

namespace RefreshLane

def flag (lane : RefreshLane) : BitVec 32 := 1 <<< lane.bit

example : (⟨6, by decide, by decide⟩ : RefreshLane).flag = worktreeStatus := rfl

theorem and_flag_ne_zero (lane : RefreshLane) (flags : BitVec 32) :
    (flags &&& lane.flag != 0) = flags.getLsbD lane.bit := by
  have hand : flags &&& lane.flag = _ := BitVec.and_twoPow flags lane.bit
  have hset : BitVec.twoPow 32 lane.bit ≠ 0 := by
    intro hzero
    have hbit := congrArg (BitVec.getLsbD · lane.bit) hzero
    simp [lane.inside] at hbit
  rw [hand]
  cases flags.getLsbD lane.bit with
  | false => rfl
  | true => exact bne_iff_ne.mpr hset

theorem getLsbD_flag (lane : RefreshLane) (i : ℕ) :
    lane.flag.getLsbD i = decide (lane.bit = i) := by
  have htwo : lane.flag.getLsbD i = _ := BitVec.getLsbD_twoPow lane.bit i
  rw [htwo, decide_eq_true lane.inside, Bool.true_and]

theorem getLsbD_lineStats (lane : RefreshLane) : uncommittedLineStats.getLsbD lane.bit = false := by
  have htwo : uncommittedLineStats.getLsbD lane.bit = _ := BitVec.getLsbD_twoPow 19 lane.bit
  rw [htwo, decide_eq_false (Ne.symm lane.apart), Bool.and_false]

theorem getLsbD_without (lane : RefreshLane) (flags flag : BitVec 32) :
    (flags &&& ~~~flag).getLsbD lane.bit = (flags.getLsbD lane.bit && !flag.getLsbD lane.bit) := by
  rw [BitVec.getLsbD_and, BitVec.getLsbD_not, decide_eq_true lane.inside, Bool.true_and]

end RefreshLane

inductive RefreshEvent where
  | request (lane : RefreshLane)
  | finish (lane : RefreshLane)
  | invalidateLineStats
  | startLineStats (statusReady : Bool)
  | finishLineStats (generation : LineStatsGeneration)
  | clear

namespace RefreshEvent

def apply (loads : RepoLoadsInFlight) : RefreshEvent → RepoLoadsInFlight
  | request lane => (loads.request lane.flag).1
  | finish lane => (loads.finish lane.flag).1
  | invalidateLineStats => loads.invalidateLineStats
  | startLineStats statusReady => (loads.startLineStats statusReady).1
  | finishLineStats generation => (loads.finishLineStats generation).1
  | clear => loads.clear

def bumps : RefreshEvent → Bool
  | invalidateLineStats | clear => true
  | _ => false

end RefreshEvent

open RefreshEvent (apply bumps)

def refreshRun (events : List RefreshEvent) : RepoLoadsInFlight :=
  events.foldl apply RepoLoadsInFlight.default

namespace RepoLoadsInFlight

def lane (loads : RepoLoadsInFlight) (l : RefreshLane) : Bool × Bool :=
  (loads.inFlight.getLsbD l.bit, loads.pending.getLsbD l.bit)

variable (loads : RepoLoadsInFlight)

theorem isInFlight_flag (l : RefreshLane) : loads.isInFlight l.flag = (loads.lane l).1 :=
  l.and_flag_ne_zero loads.inFlight

theorem pending_flag (l : RefreshLane) : (loads.pending &&& l.flag != 0) = (loads.lane l).2 :=
  l.and_flag_ne_zero loads.pending

theorem request_answer (l : RefreshLane) : (loads.request l.flag).2 = !(loads.lane l).1 := by
  rw [request, ← isInFlight_flag]
  cases loads.isInFlight l.flag <;> rfl

theorem finish_answer (l : RefreshLane) : (loads.finish l.flag).2 = (loads.lane l).2 := by
  rw [finish, ← pending_flag]
  cases loads.pending &&& l.flag != 0 <;> rfl

theorem lane_request (l other : RefreshLane) :
    (loads.request other.flag).1.lane l =
      if other.bit = l.bit then (true, (loads.lane l).2 || (loads.lane l).1) else loads.lane l := by
  have hbit := other.getLsbD_flag l.bit
  by_cases hsame : other.bit = l.bit
  · have hfly : loads.isInFlight other.flag = loads.inFlight.getLsbD l.bit := by
      rw [isInFlight_flag, lane, hsame]
    rw [if_pos hsame, request, hfly]
    cases hflying : loads.inFlight.getLsbD l.bit <;> simp [lane, hbit, hsame, hflying]
  · rw [if_neg hsame, request]
    split_ifs <;> simp [lane, hbit, hsame]

theorem lane_finish (l other : RefreshLane) :
    (loads.finish other.flag).1.lane l =
      if other.bit = l.bit then ((loads.lane l).2, false) else loads.lane l := by
  have hbit := other.getLsbD_flag l.bit
  by_cases hsame : other.bit = l.bit
  · have hwait : (loads.pending &&& other.flag != 0) = loads.pending.getLsbD l.bit := by
      rw [pending_flag, lane, hsame]
    rw [if_pos hsame, finish, hwait]
    cases hwaiting : loads.pending.getLsbD l.bit <;>
      simp [lane, l.getLsbD_without, hbit, hsame, hwaiting, -BitVec.getLsbD_eq_getElem]
  · rw [if_neg hsame, finish]
    split_ifs <;> simp [lane, l.getLsbD_without, hbit, hsame, -BitVec.getLsbD_eq_getElem]

theorem lane_startLineStats (l : RefreshLane) (statusReady : Bool) :
    (loads.startLineStats statusReady).1.lane l = loads.lane l := by
  rw [startLineStats]
  split_ifs
  · rfl
  · rfl
  · simp [lane, l.getLsbD_lineStats]

theorem lane_finishLineStats (l : RefreshLane) (generation : LineStatsGeneration) :
    (loads.finishLineStats generation).1.lane l = loads.lane l := by
  rw [finishLineStats]
  split_ifs
  · rfl
  · simp only [lane, l.getLsbD_without, l.getLsbD_lineStats, Bool.not_false, Bool.and_true]

theorem getLsbD_stats_of_lane (l : RefreshLane) : l.flag.getLsbD 19 = false := by
  rw [l.getLsbD_flag, decide_eq_false l.apart]

theorem isInFlight_lineStats :
    loads.isInFlight uncommittedLineStats = loads.inFlight.getLsbD 19 := by
  have hand : loads.inFlight &&& uncommittedLineStats = _ := BitVec.and_twoPow loads.inFlight 19
  rw [isInFlight, hand]
  cases loads.inFlight.getLsbD 19 <;> rfl

end RepoLoadsInFlight

open RepoLoadsInFlight

variable {loads : RepoLoadsInFlight}

theorem lane_apply (l : RefreshLane) (event : RefreshEvent)
    (hlane : ∀ other, event = .request other ∨ event = .finish other → other.bit ≠ l.bit)
    (hclear : event ≠ .clear) : (apply loads event).lane l = loads.lane l := by
  cases event with
  | request other => exact (lane_request loads l other).trans (if_neg (hlane other (.inl rfl)))
  | finish other => exact (lane_finish loads l other).trans (if_neg (hlane other (.inr rfl)))
  | invalidateLineStats => rfl
  | startLineStats statusReady => exact lane_startLineStats loads l statusReady
  | finishLineStats generation => exact lane_finishLineStats loads l generation
  | clear => exact absurd rfl hclear

theorem pending_apply (l : RefreshLane) (event : RefreshEvent)
    (h : (loads.lane l).2 → (loads.lane l).1) :
    ((apply loads event).lane l).2 → ((apply loads event).lane l).1 := by
  by_cases htouch : (∃ other : RefreshLane, other.bit = l.bit ∧
      (event = .request other ∨ event = .finish other)) ∨ event = .clear
  · obtain ⟨other, hbit, rfl | rfl⟩ | rfl := htouch
    · simp only [apply, lane_request, if_pos hbit, implies_true]
    · simp [apply, lane_finish, hbit]
    · simp [apply, RepoLoadsInFlight.clear, lane]
  · rw [not_or, not_exists] at htouch
    rw [lane_apply l event (fun other hevent hbit => htouch.1 other ⟨hbit, hevent⟩) htouch.2]
    exact h

theorem waiting_apply (l : RefreshLane) (event : RefreshEvent) (hlane : loads.lane l = (true, true))
    (hfinish : event ≠ .finish l) (hclear : event ≠ .clear) :
    (apply loads event).lane l = (true, true) := by
  by_cases hrequest : ∃ other : RefreshLane, other.bit = l.bit ∧ event = .request other
  · obtain ⟨other, hbit, rfl⟩ := hrequest
    simp [apply, lane_request, hbit, hlane]
  · rw [lane_apply l event ?_ hclear, hlane]
    rintro other (rfl | rfl) hbit
    · exact hrequest ⟨other, hbit, rfl⟩
    · exact hfinish (by cases other; cases l; cases hbit; rfl)

theorem waiting_foldl (l : RefreshLane) {events : List RefreshEvent}
    (hlane : loads.lane l = (true, true)) (hfinish : .finish l ∉ events)
    (hclear : .clear ∉ events) : (events.foldl apply loads).lane l = (true, true) := by
  induction events generalizing loads with
  | nil => exact hlane
  | cons event events ih =>
    rw [mem_cons, not_or] at hfinish hclear
    exact ih (waiting_apply l event hlane (Ne.symm hfinish.1) (Ne.symm hclear.1)) hfinish.2 hclear.2

def StatsFlag (loads : RepoLoadsInFlight) : Prop :=
  loads.inFlight.getLsbD 19 = loads.activeLineStats.isSome

theorem statsFlag_apply (event : RefreshEvent) (h : StatsFlag loads) :
    StatsFlag (apply loads event) := by
  have hset : uncommittedLineStats.getLsbD 19 := by decide
  cases event with
  | request l =>
    rw [apply, request]
    split_ifs
    · exact h
    · rwa [StatsFlag, BitVec.getLsbD_or, getLsbD_stats_of_lane, Bool.or_false]
  | finish l =>
    have hkept : (loads.inFlight &&& ~~~l.flag).getLsbD 19 = loads.inFlight.getLsbD 19 := by
      rw [BitVec.getLsbD_and, BitVec.getLsbD_not, getLsbD_stats_of_lane]
      simp
    rw [apply, finish]
    split_ifs
    · rwa [StatsFlag, BitVec.getLsbD_or, getLsbD_stats_of_lane, Bool.or_false, hkept]
    · rwa [StatsFlag, hkept]
  | invalidateLineStats => exact h
  | startLineStats statusReady =>
    rw [apply, startLineStats]
    split_ifs
    · exact h
    · exact h
    · rw [StatsFlag, BitVec.getLsbD_or, hset, Bool.or_true, isSome_some]
  | finishLineStats generation =>
    rw [apply, finishLineStats]
    split_ifs
    · exact h
    · rw [StatsFlag, BitVec.getLsbD_and, BitVec.getLsbD_not, hset]
      simp
  | clear => exact BitVec.getLsbD_zero

variable {generation : LineStatsGeneration}

theorem active_apply (event : RefreshEvent) (hactive : loads.activeLineStats = some generation)
    (hfinish : event ≠ .finishLineStats generation) (hclear : event ≠ .clear) :
    (apply loads event).activeLineStats = some generation := by
  cases event with
  | request l => rw [apply, request]; split_ifs <;> exact hactive
  | finish l => rw [apply, finish]; split_ifs <;> exact hactive
  | invalidateLineStats => exact hactive
  | startLineStats statusReady =>
    rw [apply, startLineStats, if_pos (by simp [hactive])]
    exact hactive
  | finishLineStats other =>
    have hother : some generation ≠ some other := fun hsame =>
      hfinish (congrArg _ (some.inj hsame).symm)
    rw [apply, finishLineStats, hactive, if_pos (bne_iff_ne.mpr hother)]
    exact hactive
  | clear => exact absurd rfl hclear

theorem active_foldl {events : List RefreshEvent}
    (hactive : loads.activeLineStats = some generation)
    (hfinish : .finishLineStats generation ∉ events) (hclear : .clear ∉ events) :
    (events.foldl apply loads).activeLineStats = some generation := by
  induction events generalizing loads with
  | nil => exact hactive
  | cons event events ih =>
    rw [mem_cons, not_or] at hfinish hclear
    exact ih (active_apply event hactive (Ne.symm hfinish.1) (Ne.symm hclear.1)) hfinish.2 hclear.2

theorem generation_apply (event : RefreshEvent) :
    (apply loads event).lineStatsGeneration =
      loads.lineStatsGeneration + BitVec.ofNat 64 event.bumps.toNat := by
  have hzero (generation : LineStatsGeneration) : generation = generation + BitVec.ofNat 64 0 :=
    (BitVec.add_zero generation).symm
  cases event with
  | request l => rw [apply, request]; split_ifs <;> exact hzero _
  | finish l => rw [apply, finish]; split_ifs <;> exact hzero _
  | invalidateLineStats => rfl
  | startLineStats statusReady => rw [apply, startLineStats]; split_ifs <;> exact hzero _
  | finishLineStats generation => rw [apply, finishLineStats]; split_ifs <;> exact hzero _
  | clear => rfl

theorem generation_foldl (events : List RefreshEvent) :
    (events.foldl apply loads).lineStatsGeneration =
      loads.lineStatsGeneration + BitVec.ofNat 64 (events.countP bumps) := by
  induction events generalizing loads with
  | nil => exact (BitVec.add_zero _).symm
  | cons event events ih =>
    rw [foldl_cons, ih, generation_apply, BitVec.add_assoc, ← BitVec.ofNat_add,
      countP_cons]
    cases event.bumps <;> simp [Nat.add_comm]

theorem start_some {statusReady : Bool}
    (hstart : (loads.startLineStats statusReady).2 = some generation) :
    loads.activeLineStats = none ∧ loads.lineStatsGeneration = generation ∧
      (loads.startLineStats statusReady).1.activeLineStats = some generation := by
  rw [startLineStats] at hstart ⊢
  split_ifs at hstart ⊢ with hbusy
  cases hstart
  simp only [Bool.or_eq_true, not_or, isSome_iff_ne_none, not_not] at hbusy
  exact ⟨hbusy.1.2, rfl, rfl⟩

theorem refreshRun_cut (before between : List RefreshEvent) (event : RefreshEvent) :
    refreshRun (before ++ event :: between) =
      between.foldl apply (apply (refreshRun before) event) := by
  rw [refreshRun, foldl_append, foldl_cons]
  rfl

theorem refreshRun_keeps {P : RepoLoadsInFlight → Prop} (hstart : P RepoLoadsInFlight.default)
    (hstep : ∀ loads event, P loads → P (apply loads event)) (events : List RefreshEvent) :
    P (refreshRun events) := by
  rw [refreshRun]
  induction events using reverseRecOn with
  | nil => exact hstart
  | append_singleton events event ih =>
    rw [foldl_concat]
    exact hstep _ event ih

theorem pending_run (l : RefreshLane) (events : List RefreshEvent) :
    ((refreshRun events).lane l).2 → ((refreshRun events).lane l).1 :=
  refreshRun_keeps (P := fun loads => (loads.lane l).2 → (loads.lane l).1)
    (fun h => (by simp [lane, RepoLoadsInFlight.default] at h))
    (fun _ event ih => pending_apply l event ih) events

theorem statsFlag_run (events : List RefreshEvent) : StatsFlag (refreshRun events) :=
  refreshRun_keeps (P := StatsFlag) rfl (fun _ event ih => statsFlag_apply event ih) events

structure RefreshKept (events : List RefreshEvent) : Prop where
  waitsOnlyBehind : ∀ l : RefreshLane, (refreshRun events).pending &&& l.flag ≠ 0 →
    (refreshRun events).isInFlight l.flag = true
  replayed : ∀ (l : RefreshLane) (before between), events = before ++ .request l :: between →
    ((refreshRun before).request l.flag).2 = false → .finish l ∉ between → .clear ∉ between →
    ((refreshRun events).finish l.flag).2 = true ∧
      ((refreshRun events).finish l.flag).1.isInFlight l.flag = true
  flagged : (refreshRun events).isInFlight uncommittedLineStats =
    (refreshRun events).activeLineStats.isSome
  oneJob : ∀ statusReady before between generation,
    events = before ++ .startLineStats statusReady :: between →
    ((refreshRun before).startLineStats statusReady).2 = some generation →
    .finishLineStats generation ∉ between → .clear ∉ between →
    ∀ ready, ((refreshRun events).startLineStats ready).2 = none
  foreign : ∀ generation, (refreshRun events).activeLineStats ≠ some generation →
    (refreshRun events).finishLineStats generation = (refreshRun events, false)
  fresh : ∀ statusReady before between generation,
    events = before ++ .startLineStats statusReady :: between →
    ((refreshRun before).startLineStats statusReady).2 = some generation →
    ((refreshRun events).finishLineStats generation).2 = true → between.countP bumps < 2 ^ 64 →
    .invalidateLineStats ∉ between ∧ .clear ∉ between

theorem start_none_of_active
    (hactive : loads.activeLineStats = some generation) (statusReady : Bool) :
    (loads.startLineStats statusReady).2 = none := by
  rw [startLineStats, if_pos (by simp [hactive])]

theorem no_bump_of_finished {before between : List RefreshEvent} {statusReady : Bool}
    (hstart : ((refreshRun before).startLineStats statusReady).2 = some generation)
    (hdone : ((refreshRun (before ++ .startLineStats statusReady :: between)).finishLineStats
      generation).2) (hcount : between.countP bumps < 2 ^ 64) :
    between.countP bumps = 0 := by
  have hnow : (refreshRun (before ++ .startLineStats statusReady :: between)).lineStatsGeneration =
      generation + BitVec.ofNat 64 (between.countP bumps) := by
    rw [refreshRun_cut, generation_foldl, generation_apply, ← (start_some hstart).2.1]
    exact congrArg (· + _) (BitVec.add_zero _)
  rw [finishLineStats] at hdone
  split_ifs at hdone
  have hsame := eq_of_beq hdone
  rw [hnow] at hsame
  have hzero := congrArg BitVec.toNat (BitVec.self_eq_add_right.mp hsame)
  rwa [BitVec.toNat_ofNat, Nat.mod_eq_of_lt hcount] at hzero

theorem refresh_lanes_kept (events : List RefreshEvent) : RefreshKept events where
  waitsOnlyBehind l hpending := by
    rw [isInFlight_flag]
    exact pending_run l events ((pending_flag _ l).symm.trans (bne_iff_ne.mpr hpending))
  replayed l before between hevents hqueued hfinish hclear := by
    have hflying : ((refreshRun before).lane l).1 = true := by
      simpa [request_answer] using hqueued
    have hwaiting : (refreshRun events).lane l = (true, true) := by
      rw [hevents, refreshRun_cut]
      refine waiting_foldl l ?_ hfinish hclear
      rw [apply, lane_request, if_pos rfl, hflying, Bool.or_true]
    rw [finish_answer, isInFlight_flag, lane_finish, if_pos rfl, hwaiting]
    exact ⟨rfl, rfl⟩
  flagged := by
    rw [isInFlight_lineStats]
    exact statsFlag_run events
  oneJob statusReady before between generation hevents hstart hfinish hclear := by
    have hactive : (refreshRun events).activeLineStats = some generation := by
      rw [hevents, refreshRun_cut]
      exact active_foldl (start_some hstart).2.2 hfinish hclear
    exact start_none_of_active hactive
  foreign generation hother := by
    rw [finishLineStats, if_pos (bne_iff_ne.mpr hother)]
  fresh statusReady before between generation hevents hstart hdone hcount := by
    subst hevents
    have hnone := List.countP_eq_zero.mp (no_bump_of_finished hstart hdone hcount)
    exact ⟨fun hmem => hnone _ hmem rfl, fun hmem => hnone _ hmem rfl⟩

def tagsLane : RefreshLane := ⟨3, by decide, by decide⟩

theorem replicate_invalidate (n : ℕ) :
    ((replicate n .invalidateLineStats).foldl apply loads).lineStatsGeneration =
      loads.lineStatsGeneration + BitVec.ofNat 64 n := by
  have hcount : (replicate n RefreshEvent.invalidateLineStats).countP bumps = n := by
    rw [countP_replicate]
    rfl
  rw [generation_foldl, hcount]

theorem replicate_invalidate_active (n : ℕ) (hactive : loads.activeLineStats = some generation) :
    ((replicate n .invalidateLineStats).foldl apply loads).activeLineStats =
      some generation := by
  refine active_foldl hactive ?_ ?_ <;> exact fun hmem => (by cases eq_of_mem_replicate hmem)

-- A clear drops the waiting refresh, the generic request reaches the line-stats flag without
-- its lane, and 2^64 invalidations bring a running job's generation back.
theorem cleared_request_is_not_replayed :
    ((refreshRun [.request tagsLane, .request tagsLane, .clear]).finish tags).2 = false ∧
    (apply ((refreshRun [.invalidateLineStats, .startLineStats true]).request
        uncommittedLineStats).1 (.finishLineStats 1)).pending = uncommittedLineStats ∧
    (apply ((refreshRun [.invalidateLineStats, .startLineStats true]).request
        uncommittedLineStats).1 (.finishLineStats 1)).inFlight = 0 ∧
    ((refreshRun (.invalidateLineStats :: .startLineStats true ::
      replicate (2 ^ 64) .invalidateLineStats)).finishLineStats 1).2 = true := by
  refine ⟨by decide, by decide, by decide, ?_⟩
  have hstart : apply (apply RepoLoadsInFlight.default .invalidateLineStats)
      (.startLineStats true) = ⟨uncommittedLineStats, 0, none, none, 0, 1, some 1, false⟩ := by decide
  rw [refreshRun, foldl_cons, foldl_cons, hstart, finishLineStats,
    replicate_invalidate_active _ rfl, if_neg (by decide), replicate_invalidate]
  decide

end GitComet.Store
