import GitComet.Store.Loads

namespace GitComet.Store
open RepoLoadsInFlight Option List Bool

def PendingLogLoad.SameFilter (load request : PendingLogLoad) : Prop :=
  load.scope = request.scope ∧ load.author = request.author

structure Prepare where
  apply : PendingLogLoad → PendingLogLoad
  keeps : ∀ load, (apply load).SameFilter load

structure OtherLane where
  flag : BitVec 32
  apart : flag &&& log = 0

inductive LoadEvent where
  | requestLog (next : PendingLogLoad)
  | requestPrimaryRefreshBatch (load : PendingLogLoad)
  | clear
  | logReply (seq : LogLoadSeq) (prepare : Prepare)
  | request (lane : OtherLane)
  | finish (lane : OtherLane)
  | invalidateLineStats
  | startLineStats (statusReady : Bool)
  | finishLineStats (generation : LineStatsGeneration)

structure LoadHistory where
  loads : RepoLoadsInFlight
  started : List LogLoadSeq
  latest : Option PendingLogLoad

namespace LoadHistory

def initial : LoadHistory := ⟨RepoLoadsInFlight.default, [], none⟩

def step (h : LoadHistory) : LoadEvent → LoadHistory
  | .requestLog next =>
    let requested := h.loads.requestLog next
    ⟨requested.1, requested.2.toList ++ h.started, some next⟩
  | .requestPrimaryRefreshBatch load =>
    let requested := h.loads.requestPrimaryRefreshBatch load
    ⟨requested.1, requested.2.toList ++ h.started,
      if requested.2.isSome then some load else h.latest⟩
  | .clear => ⟨h.loads.clear, h.started, none⟩
  | .logReply seq prepare =>
    if h.loads.isActiveLogReply seq then
      let finished := h.loads.finishLog prepare.apply
      ⟨finished.1, (finished.2.map Prod.fst).toList ++ h.started, h.latest⟩
    else h
  | .request lane => { h with loads := (h.loads.request lane.flag).1 }
  | .finish lane => { h with loads := (h.loads.finish lane.flag).1 }
  | .invalidateLineStats => { h with loads := h.loads.invalidateLineStats }
  | .startLineStats statusReady => { h with loads := (h.loads.startLineStats statusReady).1 }
  | .finishLineStats generation => { h with loads := (h.loads.finishLineStats generation).1 }

def run (events : List LoadEvent) : LoadHistory := events.foldl step initial

end LoadHistory

def numbers : ℕ → List LogLoadSeq
  | 0 => []
  | n + 1 => BitVec.ofNat 64 (n + 1) :: numbers n

variable {seq : LogLoadSeq}

theorem mem_numbers {n : ℕ} (h : seq ∈ numbers n) : ∃ k < n, seq = BitVec.ofNat 64 (k + 1) := by
  induction n with
  | zero => simp [numbers] at h
  | succ n ih =>
    rcases mem_cons.mp h with rfl | h
    · exact ⟨n, Nat.lt_succ_self n, rfl⟩
    · obtain ⟨k, hk, rfl⟩ := ih h
      exact ⟨k, Nat.lt_succ_of_lt hk, rfl⟩

theorem nodup_numbers {n : ℕ} (h : n < 2 ^ 64) : (numbers n).Nodup := by
  induction n with
  | zero => exact nodup_nil
  | succ n ih =>
    refine nodup_cons.mpr ⟨fun hmem => ?_, ih (by omega)⟩
    obtain ⟨k, hk, heq⟩ := mem_numbers hmem
    have hnat := congrArg BitVec.toNat heq
    rw [BitVec.toNat_ofNat, BitVec.toNat_ofNat, Nat.mod_eq_of_lt h,
      Nat.mod_eq_of_lt (by omega)] at hnat
    omega

section
variable (loads : RepoLoadsInFlight)

theorem isInFlight_log : loads.isInFlight log = loads.inFlight.getLsbD 11 := by
  have hand : loads.inFlight &&& log = _ := BitVec.and_twoPow loads.inFlight 11
  rw [isInFlight, hand]
  cases loads.inFlight.getLsbD 11 <;> rfl

theorem OtherLane.bit (lane : OtherLane) : lane.flag.getLsbD 11 = false := by
  have hand : lane.flag &&& log = _ := BitVec.and_twoPow lane.flag 11
  rw [lane.apart] at hand
  cases hbit : lane.flag.getLsbD 11 with
  | false => rfl
  | true =>
    rw [hbit] at hand
    cases hand

end

structure LoadInvariant (h : LoadHistory) : Prop where
  bit : h.loads.isInFlight log = h.loads.activeLog.isSome
  numbered : h.started = numbers h.started.length
  last : h.loads.lastLogSeq = BitVec.ofNat 64 h.started.length
  active : ∀ seq load, h.loads.activeLog = some (seq, load) →
    h.started.head? = some seq ∧ ∃ request, h.latest = some request ∧ load.SameFilter request
  waiting : ∀ waiting, h.loads.pendingLog = some waiting →
    ∃ seq load, h.loads.activeLog = some (seq, load) ∧ waiting.SameFilter load

structure KeepsLog (loads other : RepoLoadsInFlight) : Prop where
  bit : other.inFlight.getLsbD 11 = loads.inFlight.getLsbD 11
  waiting : other.pendingLog = loads.pendingLog
  active : other.activeLog = loads.activeLog
  last : other.lastLogSeq = loads.lastLogSeq

section
variable (loads : RepoLoadsInFlight)

theorem keepsLog_request (lane : OtherLane) : KeepsLog loads (loads.request lane.flag).1 := by
  unfold request
  split
  · exact ⟨rfl, rfl, rfl, rfl⟩
  · exact ⟨by simp only [BitVec.getLsbD_or, lane.bit, Bool.or_false], rfl, rfl, rfl⟩

theorem keepsLog_finish (lane : OtherLane) : KeepsLog loads (loads.finish lane.flag).1 := by
  have hbit : (loads.inFlight &&& ~~~lane.flag).getLsbD 11 = loads.inFlight.getLsbD 11 := by
    simp only [BitVec.getLsbD_and, BitVec.getLsbD_not, lane.bit, Bool.not_false, Bool.and_true,
      Nat.reduceLT, decide_true]
  unfold finish
  dsimp only
  split
  · exact ⟨by rw [BitVec.getLsbD_or, hbit, lane.bit, Bool.or_false], rfl, rfl, rfl⟩
  · exact ⟨hbit, rfl, rfl, rfl⟩

theorem keepsLog_startLineStats (statusReady : Bool) :
    KeepsLog loads (loads.startLineStats statusReady).1 := by
  unfold startLineStats
  split
  · exact ⟨rfl, rfl, rfl, rfl⟩
  · split
    · exact ⟨rfl, rfl, rfl, rfl⟩
    · exact ⟨by simp [uncommittedLineStats], rfl, rfl, rfl⟩

theorem keepsLog_finishLineStats (generation : LineStatsGeneration) :
    KeepsLog loads (loads.finishLineStats generation).1 := by
  unfold finishLineStats
  split
  · exact ⟨rfl, rfl, rfl, rfl⟩
  · exact ⟨by simp [uncommittedLineStats], rfl, rfl, rfl⟩

end

variable {next waiting : PendingLogLoad}

namespace LoadInvariant
variable {h : LoadHistory}

theorem initial : LoadInvariant LoadHistory.initial :=
  ⟨rfl, rfl, rfl, by rintro _ _ ⟨⟩, by rintro _ ⟨⟩⟩

theorem keep (hinv : LoadInvariant h) {loads : RepoLoadsInFlight}
    (hloads : KeepsLog h.loads loads) :
    LoadInvariant { h with loads := loads } := by
  refine ⟨?_, hinv.numbered, hloads.last.trans hinv.last, ?_, ?_⟩
  · rw [isInFlight_log, hloads.bit, hloads.active, ← hinv.bit, isInFlight_log]
  · rw [hloads.active]
    exact hinv.active
  · rw [hloads.active, hloads.waiting]
    exact hinv.waiting

theorem start (hinv : LoadInvariant h) {loads : RepoLoadsInFlight} {load request : PendingLogLoad}
    (hbit : loads.inFlight.getLsbD 11) (hwaiting : loads.pendingLog = none)
    (hlast : loads.lastLogSeq = h.loads.lastLogSeq) (hfilter : load.SameFilter request) :
    LoadInvariant ⟨(loads.startLog load).1, (loads.startLog load).2 :: h.started, some request⟩ := by
  have hseq : (loads.startLog load).2 = BitVec.ofNat 64 (h.started.length + 1) := by
    rw [startLog, hlast, hinv.last, BitVec.ofNat_add]
    rfl
  refine ⟨?_, ?_, hseq, ?_, ?_⟩
  · exact (isInFlight_log _).trans hbit
  · rw [hseq, length_cons, numbers, ← hinv.numbered]
  · rintro seq active hactive
    obtain ⟨rfl, rfl⟩ := Prod.mk.inj (some.inj hactive)
    exact ⟨rfl, request, rfl, hfilter⟩
  · rintro waiting hwait
    rw [startLog, hwaiting] at hwait
    cases hwait

theorem idle (hinv : LoadInvariant h) {loads : RepoLoadsInFlight} (latest : Option PendingLogLoad)
    (hbit : loads.inFlight.getLsbD 11 = false) (hwaiting : loads.pendingLog = none)
    (hactive : loads.activeLog = none) (hlast : loads.lastLogSeq = h.loads.lastLogSeq) :
    LoadInvariant ⟨loads, h.started, latest⟩ := by
  refine ⟨?_, hinv.numbered, hlast.trans hinv.last, ?_, ?_⟩
  · rw [isInFlight_log, hbit, hactive]
    rfl
  · rw [hactive]
    rintro _ _ ⟨⟩
  · rw [hwaiting]
    rintro _ ⟨⟩

theorem queue (hinv : LoadInvariant h) {active : PendingLogLoad}
    (hactive : h.loads.activeLog = some (seq, active)) (hfilter : active.SameFilter next)
    (hwaiting : waiting.SameFilter active) :
    LoadInvariant ⟨{ h.loads with pendingLog := some waiting }, h.started, some next⟩ := by
  refine ⟨?_, hinv.numbered, hinv.last, ?_, ?_⟩
  · rw [← hinv.bit]
    rfl
  · intro seq' active' hactive'
    obtain ⟨rfl, rfl⟩ := Prod.mk.inj (some.inj (hactive.symm.trans hactive'))
    exact ⟨(hinv.active _ _ hactive).1, next, rfl, hfilter⟩
  · intro waiting' hwait
    cases hwait
    exact ⟨seq, active, hactive, hwaiting⟩

end LoadInvariant

theorem supersedesActive_false {loads : RepoLoadsInFlight}
    (h : loads.supersedesActive next = false) :
    ∃ seq active, loads.activeLog = some (seq, active) ∧ active.SameFilter next := by
  unfold supersedesActive at h
  split at h
  · cases h
  · rename_i seq active hactive
    rw [or_eq_false_iff, bne_eq_false_iff_eq, bne_eq_false_iff_eq] at h
    exact ⟨seq, active, hactive, h⟩

theorem queueLog_cases (loads : RepoLoadsInFlight) (next : PendingLogLoad) :
    (loads.queueLog next = some next ∧ ∀ existing, loads.pendingLog = some existing →
      existing.SameFilter next → existing.cursor = none → next.cursor = none) ∨
    ∃ existing, loads.pendingLog = some existing ∧ loads.queueLog next = some existing ∧
      existing.SameFilter next ∧ existing.cursor = none := by
  unfold queueLog
  split
  · rename_i hpending
    exact .inl ⟨rfl, fun existing h => by rw [hpending] at h; cases h⟩
  · rename_i existing hpending
    have honly : ∀ other, loads.pendingLog = some other → other = existing := fun other h =>
      some.inj (h.symm.trans hpending)
    split
    · rename_i hfilter
      refine .inl ⟨rfl, fun other h hsame => ?_⟩
      rw [honly other h] at hsame
      rw [bne_eq_false_iff_eq.mpr hsame.1, bne_eq_false_iff_eq.mpr hsame.2] at hfilter
      cases hfilter
    · rename_i hfilter
      rw [not_eq_true, or_eq_false_iff, bne_eq_false_iff_eq,
        bne_eq_false_iff_eq] at hfilter
      split
      · rename_i hcursor
        rw [and_eq_true, isNone_iff_eq_none] at hcursor
        exact .inr ⟨existing, hpending, rfl, hfilter, hcursor.1⟩
      · rename_i hcursor
        refine .inl ⟨rfl, fun other h _ hrefresh => ?_⟩
        rw [honly other h] at hrefresh
        rw [hrefresh, isNone_none, Bool.true_and, not_eq_true,
          isSome_eq_false_iff, isNone_iff_eq_none] at hcursor
        exact hcursor

theorem LoadInvariant.requestLog {h : LoadHistory} (hinv : LoadInvariant h)
    (next : PendingLogLoad) : LoadInvariant (h.step (.requestLog next)) := by
  have hself : next.SameFilter next := ⟨rfl, rfl⟩
  rw [LoadHistory.step, RepoLoadsInFlight.requestLog]
  split
  · rename_i hidle
    have hactive : h.loads.activeLog = none := by
      rw [hinv.bit] at hidle
      simpa using hidle
    have hwaiting : h.loads.pendingLog = none := by
      cases hpending : h.loads.pendingLog with
      | none => rfl
      | some waiting =>
        obtain ⟨seq, load, hload, -⟩ := hinv.waiting waiting hpending
        rw [hactive] at hload
        cases hload
    exact hinv.start (by rw [BitVec.getLsbD_or]; exact or_true _) hwaiting rfl hself
  · rename_i hbusy
    rw [not_eq_true, not_eq_false', isInFlight_log] at hbusy
    split
    · exact hinv.start hbusy rfl rfl hself
    · rename_i hsame
      obtain ⟨seq, active, hactive, hfilter⟩ := supersedesActive_false (not_eq_true _ ▸ hsame)
      rcases queueLog_cases h.loads next with ⟨hqueue, -⟩ | ⟨existing, -, hqueue, hexisting, -⟩
      · rw [hqueue]
        exact hinv.queue hactive hfilter ⟨hfilter.1.symm, hfilter.2.symm⟩
      · rw [hqueue]
        exact hinv.queue hactive hfilter
          ⟨hexisting.1.trans hfilter.1.symm, hexisting.2.trans hfilter.2.symm⟩

theorem LoadInvariant.requestBatch {h : LoadHistory} (hinv : LoadInvariant h)
    (load : PendingLogLoad) : LoadInvariant (h.step (.requestPrimaryRefreshBatch load)) := by
  rw [LoadHistory.step, requestPrimaryRefreshBatch]
  split
  · rename_i hidle
    rw [and_eq_true, isNone_iff_eq_none] at hidle
    refine hinv.start ?_ hidle.2 rfl ⟨rfl, rfl⟩
    have hlog : primaryRefreshFlags.getLsbD 11 := by decide
    rw [BitVec.getLsbD_or, hlog, Bool.or_true]
  · exact hinv

theorem LoadInvariant.logReply {h : LoadHistory} (hinv : LoadInvariant h) (seq : LogLoadSeq)
    (prepare : Prepare) : LoadInvariant (h.step (.logReply seq prepare)) := by
  have hbit : (h.loads.inFlight &&& ~~~log).getLsbD 11 = false := by
    rw [BitVec.getLsbD_and, BitVec.getLsbD_not]
    exact and_false _
  rw [LoadHistory.step]
  split
  · rw [finishLog]
    cases hpending : h.loads.pendingLog with
    | none => exact hinv.idle h.latest hbit rfl rfl rfl
    | some waiting =>
      obtain ⟨active, load, hactive, hwaiting⟩ := hinv.waiting waiting hpending
      obtain ⟨-, request, hlatest, hload⟩ := hinv.active active load hactive
      obtain ⟨hscope, hauthor⟩ := prepare.keeps waiting
      rw [hlatest]
      refine hinv.start ?_ rfl rfl ⟨(hscope.trans hwaiting.1).trans hload.1,
        (hauthor.trans hwaiting.2).trans hload.2⟩
      rw [BitVec.getLsbD_or]
      exact or_true _
  · exact hinv

theorem LoadInvariant.step {h : LoadHistory} (hinv : LoadInvariant h) (event : LoadEvent) :
    LoadInvariant (h.step event) := by
  cases event with
  | requestLog next => exact hinv.requestLog next
  | requestPrimaryRefreshBatch load => exact hinv.requestBatch load
  | clear => exact hinv.idle none BitVec.getLsbD_zero rfl rfl rfl
  | logReply seq prepare => exact hinv.logReply seq prepare
  | request lane => exact hinv.keep (keepsLog_request _ lane)
  | finish lane => exact hinv.keep (keepsLog_finish _ lane)
  | invalidateLineStats => exact hinv.keep ⟨rfl, rfl, rfl, rfl⟩
  | startLineStats statusReady => exact hinv.keep (keepsLog_startLineStats _ statusReady)
  | finishLineStats generation => exact hinv.keep (keepsLog_finishLineStats _ generation)

theorem loadInvariant_run (events : List LoadEvent) : LoadInvariant (LoadHistory.run events) :=
  List.foldlRecOn events LoadHistory.step .initial fun _ hinv event _ => hinv.step event

structure Coalesced (h : LoadHistory) : Prop where
  bit : h.loads.isInFlight log = true ↔ ∃ seq load, h.loads.activeLog = some (seq, load)
  one_accepted : ∀ s t, h.loads.isActiveLogReply s = true → h.loads.isActiveLogReply t = true → s = t
  fresh : h.started.Nodup
  superseded : ∀ seq ∈ h.started.tail, h.loads.isActiveLogReply seq = false
  latest : ∀ seq load, h.loads.activeLog = some (seq, load) →
    ∃ request, h.latest = some request ∧ load.SameFilter request
  waiting : ∀ waiting, h.loads.pendingLog = some waiting →
    ∃ seq load, h.loads.activeLog = some (seq, load) ∧ waiting.SameFilter load
  refresh_kept : ∀ event waiting after, h.loads.pendingLog = some waiting → waiting.cursor = none →
    (h.step event).loads.pendingLog = some after → after.cursor = none
  pagination_ignored : ∀ next waiting, h.loads.pendingLog = some waiting → waiting.cursor = none →
    next.cursor.isSome = true → next.SameFilter waiting →
    h.loads.requestLog next = (h.loads, none)

section
variable {h : LoadHistory}

theorem accepted_iff {loads : RepoLoadsInFlight} :
    loads.isActiveLogReply seq ↔ ∃ load, loads.activeLog = some (seq, load) := by
  unfold isActiveLogReply
  split
  · rename_i hactive
    simp [hactive]
  · rename_i active load hactive
    rw [hactive, beq_iff_eq]
    constructor
    · rintro rfl
      exact ⟨load, rfl⟩
    · rintro ⟨load', heq⟩
      exact (Prod.mk.inj (some.inj heq)).1

namespace LoadInvariant

theorem requestLog_waiting (hinv : LoadInvariant h)
    (hwaiting : h.loads.pendingLog = some waiting) (hrefresh : waiting.cursor = none) :
    ∀ after, (h.loads.requestLog next).1.pendingLog = some after → after.cursor = none := by
  intro after hafter
  unfold RepoLoadsInFlight.requestLog at hafter
  split at hafter
  · obtain rfl := some.inj (hwaiting.symm.trans hafter)
    exact hrefresh
  · split at hafter
    · cases hafter
    · rename_i hsame
      obtain ⟨seq, active, hactive, hfilter⟩ := supersedesActive_false (not_eq_true _ ▸ hsame)
      have hqueue : h.loads.queueLog next = some after := hafter
      rcases queueLog_cases h.loads next with ⟨hnext, hfresh⟩ | ⟨existing, -, hold, -, hcursor⟩
      · obtain rfl := some.inj (hnext.symm.trans hqueue)
        obtain ⟨seq', active', hactive', hsame'⟩ := hinv.waiting waiting hwaiting
        obtain ⟨rfl, rfl⟩ := Prod.mk.inj (some.inj (hactive.symm.trans hactive'))
        exact hfresh waiting hwaiting ⟨hsame'.1.trans hfilter.1, hsame'.2.trans hfilter.2⟩ hrefresh
      · obtain rfl := some.inj (hold.symm.trans hqueue)
        exact hcursor

theorem batch_refused {load : PendingLogLoad} {loads : RepoLoadsInFlight}
    (hwaiting : loads.pendingLog = some waiting) :
    loads.requestPrimaryRefreshBatch load = (loads, none) := by
  rw [requestPrimaryRefreshBatch, hwaiting, isNone_some, Bool.and_false]
  exact if_neg Bool.false_ne_true

theorem finishLog_waiting (loads : RepoLoadsInFlight) (prepare : PendingLogLoad → PendingLogLoad) :
    (loads.finishLog prepare).1.pendingLog = none := by
  unfold finishLog
  split
  · assumption
  · rfl

theorem refresh_kept (hinv : LoadInvariant h) (event : LoadEvent) {after : PendingLogLoad}
    (hwaiting : h.loads.pendingLog = some waiting) (hrefresh : waiting.cursor = none)
    (hafter : (h.step event).loads.pendingLog = some after) : after.cursor = none := by
  have hkeep : ∀ {loads : RepoLoadsInFlight}, KeepsLog h.loads loads →
      loads.pendingLog = some after → after.cursor = none := by
    intro loads hloads hsame
    rw [hloads.waiting, hwaiting] at hsame
    cases hsame
    exact hrefresh
  have hsame : KeepsLog h.loads h.loads := ⟨rfl, rfl, rfl, rfl⟩
  cases event with
  | requestLog next => exact hinv.requestLog_waiting hwaiting hrefresh after hafter
  | requestPrimaryRefreshBatch load =>
    rw [LoadHistory.step, batch_refused hwaiting] at hafter
    exact hkeep hsame hafter
  | clear => cases hafter
  | logReply seq prepare =>
    rw [LoadHistory.step] at hafter
    split at hafter
    · rw [finishLog_waiting] at hafter
      cases hafter
    · exact hkeep hsame hafter
  | request lane => exact hkeep (keepsLog_request _ lane) hafter
  | finish lane => exact hkeep (keepsLog_finish _ lane) hafter
  | invalidateLineStats => exact hkeep ⟨rfl, rfl, rfl, rfl⟩ hafter
  | startLineStats statusReady => exact hkeep (keepsLog_startLineStats _ statusReady) hafter
  | finishLineStats generation => exact hkeep (keepsLog_finishLineStats _ generation) hafter

theorem pagination_ignored (hinv : LoadInvariant h)
    (hwaiting : h.loads.pendingLog = some waiting) (hrefresh : waiting.cursor = none)
    (hcursor : next.cursor.isSome) (hfilter : next.SameFilter waiting) :
    h.loads.requestLog next = (h.loads, none) := by
  obtain ⟨seq, active, hactive, hsame⟩ := hinv.waiting waiting hwaiting
  have hbusy : h.loads.isInFlight log := by rw [hinv.bit, hactive, isSome_some]
  have hstays : h.loads.supersedesActive next = false := by
    rw [supersedesActive, hactive]
    dsimp only
    rw [bne_eq_false_iff_eq.mpr (hsame.1.symm.trans hfilter.1.symm),
      bne_eq_false_iff_eq.mpr (hsame.2.symm.trans hfilter.2.symm), Bool.or_self]
  have hqueue : h.loads.queueLog next = h.loads.pendingLog := by
    rcases queueLog_cases h.loads next with ⟨-, hfresh⟩ | ⟨existing, hpending, hold, -⟩
    · rw [hfresh waiting hwaiting ⟨hfilter.1.symm, hfilter.2.symm⟩ hrefresh] at hcursor
      cases hcursor
    · rw [hold, hpending]
  rw [RepoLoadsInFlight.requestLog, hbusy, hstays, hqueue]
  rfl

end LoadInvariant

theorem log_loads_coalesce (events : List LoadEvent)
    (h : (LoadHistory.run events).started.length < 2 ^ 64) :
    Coalesced (LoadHistory.run events) := by
  have hinv := loadInvariant_run events
  generalize LoadHistory.run events = history at h hinv
  have hfresh : history.started.Nodup := hinv.numbered ▸ nodup_numbers h
  refine ⟨?_, ?_, hfresh, ?_, fun seq load hactive => (hinv.active seq load hactive).2,
    hinv.waiting, fun event _ _ => hinv.refresh_kept event, fun _ _ => hinv.pagination_ignored⟩
  · rw [hinv.bit, isSome_iff_exists, Prod.exists]
  · intro s t hs ht
    obtain ⟨load, hs⟩ := accepted_iff.mp hs
    obtain ⟨load', ht⟩ := accepted_iff.mp ht
    exact (Prod.mk.inj (some.inj (hs.symm.trans ht))).1
  · intro seq hmem
    rw [← not_eq_true]
    intro haccepted
    obtain ⟨load, hactive⟩ := accepted_iff.mp haccepted
    obtain ⟨older, hstarted⟩ := head?_eq_some_iff.mp (hinv.active seq load hactive).1
    rw [hstarted] at hmem hfresh
    exact (nodup_cons.mp hfresh).1 hmem

def firstPage (author : Option (List Char)) : PendingLogLoad := ⟨.firstParent, author, 200, none⟩

theorem log_loads_coalesce_on_a_filter_change :
    Coalesced (LoadHistory.run [.requestLog (firstPage none), .requestLog (firstPage (some ['a'])),
      .logReply 1 ⟨id, fun _ => ⟨rfl, rfl⟩⟩]) :=
  log_loads_coalesce _ (by decide)

end

end GitComet.Store
