import Mathlib.Data.List.Nodup

namespace GitComet.Store
open List Option Bool Nat

inductive QueueEntry where
  | latest
  | unrelated
  deriving DecidableEq

def QueueEntry.owns (entry : QueueEntry) : Bool := decide (entry = .latest)

inductive Worker where
  | idle
  | received
  | running (task : Option ℕ)
  deriving DecidableEq

def Worker.owns (worker : Worker) : Bool := decide (worker = .received)

inductive SubmitPhase where
  | sending
  | cleaning
  | returned (alreadyQueued : Bool)
  deriving DecidableEq

def SubmitPhase.pending : SubmitPhase → Bool
  | sending => true
  | cleaning => true
  | returned _ => false

structure Submission where
  phase : SubmitPhase
  replaced : Option ℕ
  deriving DecidableEq

def Submission.owns (submission : Submission) : Bool := submission.phase.pending

-- The task of the call at position `ix` of `submissions` is number `ix`; `started` lists the tasks
-- in the order in which they were taken.
structure LatestTasks where
  slot : Option ℕ
  queue : List QueueEntry
  workers : List Worker
  submissions : List Submission
  started : List ℕ
  sendFailures : ℕ
  taskPanics : ℕ
  deriving DecidableEq

inductive TaskEvent where
  | submit
  | send (ix : ℕ)
  | clean (ix : ℕ)
  | spawn
  | receive (w : ℕ)
  | take (w : ℕ)
  | finish (w : ℕ) (panicked : Bool)
  deriving DecidableEq

namespace LatestTasks

def initial (threads : ℕ) : LatestTasks where
  slot := none
  queue := []
  workers := replicate threads .idle
  submissions := []
  started := []
  sendFailures := 0
  taskPanics := 0

def trySpawn (s : LatestTasks) (entry : QueueEntry) : LatestTasks × Bool :=
  if s.workers = [] then ({ s with sendFailures := s.sendFailures + 1 }, false)
  else ({ s with queue := s.queue ++ [entry] }, true)

def submit (s : LatestTasks) : LatestTasks :=
  let alreadyQueued := s.slot.isSome
  { s with
    slot := some s.submissions.length
    submissions := s.submissions ++
      [⟨if alreadyQueued then .returned true else .sending, s.slot⟩] }

def send (s : LatestTasks) (ix : ℕ) (submission : Submission) : LatestTasks :=
  let (next, sent) := s.trySpawn .latest
  { next with
    submissions := next.submissions.set ix
      { submission with phase := if sent then .returned false else .cleaning } }

def receive (s : LatestTasks) (w : ℕ) : Option LatestTasks :=
  match s.queue with
  | [] => none
  | .latest :: queue => some { s with queue := queue, workers := s.workers.set w .received }
  | .unrelated :: queue =>
    some { s with queue := queue, workers := s.workers.set w (.running none) }

def step (s : LatestTasks) : TaskEvent → Option LatestTasks
  | .submit => some s.submit
  | .send ix => do
    let submission ← s.submissions[ix]?
    if submission.phase = .sending then some (s.send ix submission) else none
  | .clean ix => do
    let submission ← s.submissions[ix]?
    if submission.phase = .cleaning then
      some { s with
        slot := none
        submissions := s.submissions.set ix { submission with phase := .returned false } }
    else none
  | .spawn => some (s.trySpawn .unrelated).1
  | .receive w => do
    let worker ← s.workers[w]?
    if worker = .idle then s.receive w else none
  | .take w => do
    let worker ← s.workers[w]?
    if worker = .received then
      some { s with
        slot := none
        workers := s.workers.set w (.running s.slot)
        started := s.started ++ s.slot.toList }
    else none
  | .finish w panicked => do
    let worker ← s.workers[w]?
    match worker with
    | .running _ => some { s with
        workers := s.workers.set w .idle
        taskPanics := s.taskPanics + panicked.toNat }
    | _ => none

def run (s : LatestTasks) : List TaskEvent → Option LatestTasks
  | [] => some s
  | event :: events => do
    let s ← s.step event
    run s events

def owners (s : LatestTasks) : ℕ :=
  s.queue.countP QueueEntry.owns + s.workers.countP Worker.owns +
    s.submissions.countP Submission.owns

structure Drained (s : LatestTasks) : Prop where
  queue : s.queue = []
  workers : ∀ worker ∈ s.workers, worker ≠ .received
  submissions : ∀ submission ∈ s.submissions, submission.phase.pending = false

structure Exact (s : LatestTasks) : Prop where
  owner : s.owners = s.slot.isSome.toNat
  once : s.started.Nodup
  replaced : ∀ submission ∈ s.submissions, ∀ old, submission.replaced = some old → old ∉ s.started
  newest : s.sendFailures = 0 → s.Drained → ∀ task, task + 1 = s.submissions.length →
    task ∈ s.started
  returns : ∀ submission ∈ s.submissions, submission.phase = .returned true ↔
    ∃ old, submission.replaced = some old ∧ old ∉ s.started
  failed : 0 < s.sendFailures → (∀ submission ∈ s.submissions, submission.phase.pending = false) →
    s.slot = none

structure Owned (s : LatestTasks) : Prop where
  owner : s.owners = s.slot.isSome.toNat
  slot : ∀ task, s.slot = some task → task + 1 = s.submissions.length
  fresh : ∀ task ∈ s.started, task < s.submissions.length ∧ s.slot ≠ some task
  once : s.started.Nodup
  replaced : ∀ submission ∈ s.submissions, ∀ old, submission.replaced = some old →
    old + 1 < s.submissions.length ∧ old ∉ s.started
  returns : ∀ submission ∈ s.submissions, submission.phase = .returned true ↔
    submission.replaced.isSome = true
  newest : ∀ task, task + 1 = s.submissions.length →
    s.slot = some task ∨ task ∈ s.started ∨ 0 < s.sendFailures
  cleaning : ∀ submission ∈ s.submissions, submission.phase = .cleaning → 0 < s.sendFailures
  failures : 0 < s.sendFailures → s.workers = []
  disconnected : s.workers = [] → s.queue = []

theorem owned_initial (threads : ℕ) : (initial threads).Owned where
  owner := by
    have hidle : (replicate threads Worker.idle).countP Worker.owns = 0 := by
      rw [countP_eq_zero]
      intro worker hmem
      rw [eq_of_mem_replicate hmem]
      decide
    exact congrArg (0 + · + 0) hidle
  slot _ h := by cases h
  fresh _ h := by cases h
  once := nodup_nil
  replaced _ h := by cases h
  returns _ h := by cases h
  newest _ h := by cases h
  cleaning _ h := by cases h
  failures h := absurd h (Nat.lt_irrefl 0)
  disconnected _ := rfl

theorem countP_set_add {α : Type} (owns : α → Bool) {items : List α} {ix : ℕ} {old : α} (new : α)
    (h : items[ix]? = some old) :
    (items.set ix new).countP owns + (owns old).toNat = items.countP owns + (owns new).toNat := by
  induction items generalizing ix with
  | nil => cases h
  | cons item items ih =>
    cases ix with
    | zero =>
      cases h
      rw [set_cons_zero, countP_cons, countP_cons]
      cases owns old <;> cases owns new <;> simp
    | succ ix =>
      rw [set_cons_succ, countP_cons, countP_cons]
      have hrest := ih h
      omega

section
variable {s after : LatestTasks} {submission : Submission} {ix w : ℕ}

section
variable (h : s.Owned)
include h

theorem owned_submit : s.submit.Owned := by
  have howner : s.submit.owners = 1 := by
    have hbefore := h.owner
    rw [owners] at hbefore
    rw [owners, submit, countP_append]
    cases hslot : s.slot with
    | none =>
      rw [hslot] at hbefore
      have hone : [(⟨.sending, none⟩ : Submission)].countP Submission.owns = 1 := rfl
      rw [isSome_none, toNat_false] at hbefore
      simp only [isSome_none, false_eq_true, if_false]
      omega
    | some old =>
      rw [hslot] at hbefore
      have hzero : [(⟨.returned true, some old⟩ : Submission)].countP Submission.owns = 0 := rfl
      rw [isSome_some, toNat_true] at hbefore
      simp only [isSome_some, if_true]
      omega
  have hlength : s.submit.submissions.length = s.submissions.length + 1 := by
    rw [submit, length_append]
    rfl
  refine ⟨howner, fun task htask => ?_, fun task htask => ?_, h.once, fun new hnew old hold => ?_,
    fun new hnew => ?_, fun task htask => ?_, fun new hnew hphase => ?_, h.failures, h.disconnected⟩
  · cases htask
    exact hlength.symm
  · have hless := (h.fresh task htask).1
    rw [hlength]
    refine ⟨lt_succ_of_lt hless, fun heq => ?_⟩
    cases heq
    exact Nat.lt_irrefl _ hless
  · rw [hlength]
    rcases mem_append.mp hnew with hmem | hmem
    · have hbefore := h.replaced new hmem old hold
      exact ⟨lt_succ_of_lt hbefore.1, hbefore.2⟩
    · rw [mem_singleton.mp hmem] at hold
      refine ⟨lt_succ_of_le (Nat.le_of_eq (h.slot old hold)), fun hstarted => ?_⟩
      exact (h.fresh old hstarted).2 hold
  · rcases mem_append.mp hnew with hmem | hmem
    · exact h.returns new hmem
    · rw [mem_singleton.mp hmem]
      cases s.slot with
      | none => decide
      | some old => exact ⟨fun _ => rfl, fun _ => rfl⟩
  · rw [hlength, Nat.add_right_cancel_iff] at htask
    exact .inl (htask ▸ rfl)
  · rcases mem_append.mp hnew with hmem | hmem
    · exact h.cleaning new hmem hphase
    · rw [mem_singleton.mp hmem] at hphase
      cases hslot : s.slot with
      | none =>
        rw [hslot] at hphase
        cases hphase
      | some old =>
        rw [hslot] at hphase
        cases hphase

theorem Owned.set_replaced (hsubmission : s.submissions[ix]? = some submission)
    (phase : SubmitPhase) :
    ∀ new ∈ s.submissions.set ix { submission with phase := phase }, ∀ old,
      new.replaced = some old →
        old + 1 < (s.submissions.set ix { submission with phase := phase }).length ∧
          old ∉ s.started := by
  intro new hnew old hold
  rw [length_set]
  rcases mem_or_eq_of_mem_set hnew with hmem | rfl
  · exact h.replaced new hmem old hold
  · exact h.replaced submission (mem_of_getElem? hsubmission) old hold

theorem Owned.set_returns (hsubmission : s.submissions[ix]? = some submission)
    (hold : submission.phase ≠ .returned true) {phase : SubmitPhase}
    (hphase : phase ≠ .returned true) :
    ∀ new ∈ s.submissions.set ix { submission with phase := phase },
      new.phase = .returned true ↔ new.replaced.isSome := by
  intro new hnew
  rcases mem_or_eq_of_mem_set hnew with hmem | rfl
  · exact h.returns new hmem
  · have hbefore := h.returns submission (mem_of_getElem? hsubmission)
    exact ⟨fun heq => absurd heq hphase, fun hsome => absurd (hbefore.mpr hsome) hold⟩

theorem Owned.pending_owner (hsubmission : s.submissions[ix]? = some submission)
    (hpending : submission.phase.pending) : s.slot.isSome := by
  have hcount : 0 < s.submissions.countP Submission.owns :=
    countP_pos_iff.mpr ⟨submission, mem_of_getElem? hsubmission, hpending⟩
  have howner := h.owner
  rw [owners] at howner
  cases hslot : s.slot.isSome with
  | true => rfl
  | false =>
    rw [hslot, toNat_false] at howner
    omega

theorem owned_send (hsubmission : s.submissions[ix]? = some submission)
    (hphase : submission.phase = .sending) : (s.send ix submission).Owned := by
  have hold : submission.phase ≠ .returned true := by
    rw [hphase]
    decide
  have howns : submission.owns := by
    rw [Submission.owns, hphase]
    rfl
  have howner := h.owner
  rw [owners] at howner
  by_cases hworkers : s.workers = []
  · have hsend : s.send ix submission = { s with
        sendFailures := s.sendFailures + 1
        submissions := s.submissions.set ix { submission with phase := .cleaning } } := by
      rw [send, trySpawn, if_pos hworkers]
      rfl
    rw [hsend]
    have hset := countP_set_add Submission.owns { submission with phase := .cleaning } hsubmission
    have hnew : Submission.owns { submission with phase := .cleaning } := rfl
    rw [howns, hnew] at hset
    refine ⟨?_, fun task htask => ?_, fun task htask => ?_, h.once,
      h.set_replaced hsubmission .cleaning, h.set_returns hsubmission hold (by decide),
      fun task htask => ?_, fun _ _ _ => succ_pos _, fun _ => hworkers, h.disconnected⟩
    · rw [owners]
      dsimp only
      omega
    · rw [length_set]
      exact h.slot task htask
    · rw [length_set]
      exact h.fresh task htask
    · exact .inr (.inr (succ_pos _))
  · have hsend : s.send ix submission = { s with
        queue := s.queue ++ [.latest]
        submissions := s.submissions.set ix { submission with phase := .returned false } } := by
      rw [send, trySpawn, if_neg hworkers]
      rfl
    rw [hsend]
    have hset := countP_set_add Submission.owns { submission with phase := .returned false }
      hsubmission
    have hnew : Submission.owns { submission with phase := .returned false } = false := rfl
    have hentry : [QueueEntry.latest].countP QueueEntry.owns = 1 := rfl
    rw [howns, hnew, toNat_true, toNat_false] at hset
    refine ⟨?_, fun task htask => ?_, fun task htask => ?_, h.once,
      h.set_replaced hsubmission (.returned false), h.set_returns hsubmission hold (by decide),
      fun task htask => ?_, fun new hmem hcleaning => ?_, h.failures,
      fun hnone => absurd hnone hworkers⟩
    · rw [owners, countP_append, hentry]
      dsimp only
      omega
    · rw [length_set]
      exact h.slot task htask
    · rw [length_set]
      exact h.fresh task htask
    · rw [length_set] at htask
      exact h.newest task htask
    · rcases mem_or_eq_of_mem_set hmem with hbefore | rfl
      · exact h.cleaning new hbefore hcleaning
      · cases hcleaning

theorem owned_clean (hsubmission : s.submissions[ix]? = some submission)
    (hphase : submission.phase = .cleaning) :
    Owned { s with
      slot := none
      submissions := s.submissions.set ix { submission with phase := .returned false } } := by
  have hold : submission.phase ≠ .returned true := by
    rw [hphase]
    decide
  have howns : submission.owns := by
    rw [Submission.owns, hphase]
    rfl
  have hfailed := h.cleaning submission (mem_of_getElem? hsubmission) hphase
  have howner := h.owner
  rw [owners, h.pending_owner hsubmission howns, toNat_true] at howner
  have hset := countP_set_add Submission.owns { submission with phase := .returned false }
    hsubmission
  have hnew : Submission.owns { submission with phase := .returned false } = false := rfl
  rw [howns, hnew, toNat_true, toNat_false] at hset
  refine ⟨?_, fun task htask => (by cases htask), fun task htask => ?_, h.once,
    h.set_replaced hsubmission (.returned false), h.set_returns hsubmission hold (by decide),
    fun _ _ => .inr (.inr hfailed), fun _ _ _ => hfailed, h.failures, h.disconnected⟩
  · rw [owners, isSome_none, toNat_false]
    dsimp only
    omega
  · rw [length_set]
    exact ⟨(h.fresh task htask).1, fun heq => (by cases heq)⟩

theorem owned_spawn : (s.trySpawn .unrelated).1.Owned := by
  rw [trySpawn]
  split_ifs with hworkers
  · exact ⟨h.owner, h.slot, h.fresh, h.once, h.replaced, h.returns,
      fun _ _ => .inr (.inr (succ_pos _)), fun _ _ _ => succ_pos _, fun _ => hworkers,
      h.disconnected⟩
  · refine ⟨?_, h.slot, h.fresh, h.once, h.replaced, h.returns, h.newest, h.cleaning, h.failures,
      fun hnone => absurd hnone hworkers⟩
    rw [owners, countP_append]
    exact h.owner

end

theorem set_eq_nil_iff {workers : List Worker} (new : Worker) :
    workers.set w new = [] ↔ workers = [] := by
  rw [← length_eq_zero_iff, length_set, length_eq_zero_iff]

theorem owned_receive (h : s.Owned) (hworker : s.workers[w]? = some .idle)
    (hreceive : s.receive w = some after) : after.Owned := by
  have howner := h.owner
  rw [owners] at howner
  rw [receive] at hreceive
  have hidle : Worker.owns .idle = false := rfl
  cases hqueue : s.queue with
  | nil =>
    rw [hqueue] at hreceive
    cases hreceive
  | cons entry queue =>
    rw [hqueue] at hreceive howner
    rw [countP_cons] at howner
    have hempty : ∀ new, s.workers.set w new = [] → queue = [] := by
      intro new hnone
      have hbefore := h.disconnected ((set_eq_nil_iff _).mp hnone)
      rw [hqueue] at hbefore
      cases hbefore
    cases entry with
    | latest =>
      cases hreceive
      have hset := countP_set_add Worker.owns .received hworker
      have hentry : QueueEntry.owns .latest := rfl
      have hreceived : Worker.owns .received := rfl
      rw [hidle, hreceived, toNat_true, toNat_false] at hset
      rw [if_pos hentry] at howner
      refine ⟨?_, h.slot, h.fresh, h.once, h.replaced, h.returns, h.newest, h.cleaning,
        fun hfailed => (set_eq_nil_iff _).mpr (h.failures hfailed), hempty _⟩
      rw [owners]
      dsimp only
      omega
    | unrelated =>
      cases hreceive
      have hset := countP_set_add Worker.owns (.running none) hworker
      have hentry : ¬QueueEntry.owns .unrelated := by decide
      have hrunning : Worker.owns (.running none) = false := rfl
      rw [hidle, hrunning] at hset
      rw [if_neg hentry] at howner
      refine ⟨?_, h.slot, h.fresh, h.once, h.replaced, h.returns, h.newest, h.cleaning,
        fun hfailed => (set_eq_nil_iff _).mpr (h.failures hfailed), hempty _⟩
      rw [owners]
      dsimp only
      omega

theorem owned_take (h : s.Owned) (hworker : s.workers[w]? = some .received) :
    Owned { s with
      slot := none
      workers := s.workers.set w (.running s.slot)
      started := s.started ++ s.slot.toList } := by
  have howner := h.owner
  rw [owners] at howner
  have hset := countP_set_add Worker.owns (.running s.slot) hworker
  have hreceived : Worker.owns .received := rfl
  have hrunning : Worker.owns (.running s.slot) = false := rfl
  rw [hreceived, hrunning, toNat_true, toNat_false] at hset
  cases hslot : s.slot with
  | none =>
    rw [hslot, isSome_none, toNat_false] at howner
    omega
  | some task =>
    have hlength := h.slot task hslot
    rw [hslot] at hset howner
    rw [isSome_some, toNat_true] at howner
    refine ⟨?_, fun other hother => (by cases hother), fun other hother => ?_, ?_,
      fun new hnew old hold => ?_, h.returns, fun other hother => ?_, h.cleaning,
      fun hfailed => (set_eq_nil_iff _).mpr (h.failures hfailed),
      fun hnone => h.disconnected ((set_eq_nil_iff _).mp hnone)⟩
    · rw [owners, isSome_none, toNat_false]
      dsimp only
      omega
    · rcases mem_append.mp hother with hbefore | hnow
      · exact ⟨(h.fresh other hbefore).1, fun heq => (by cases heq)⟩
      · rw [toList_some, mem_singleton] at hnow
        subst hnow
        exact ⟨lt_of_succ_le (Nat.le_of_eq hlength), fun heq => (by cases heq)⟩
    · rw [toList_some, nodup_append]
      refine ⟨h.once, nodup_singleton task, fun other hother now hnow heq => ?_⟩
      rw [mem_singleton.mp hnow] at heq
      subst heq
      exact (h.fresh other hother).2 hslot
    · have hbefore := h.replaced new hnew old hold
      refine ⟨hbefore.1, fun hmem => ?_⟩
      rcases mem_append.mp hmem with hearlier | hnow
      · exact hbefore.2 hearlier
      · rw [toList_some, mem_singleton] at hnow
        rw [hnow, hlength] at hbefore
        exact Nat.lt_irrefl _ hbefore.1
    · have hsame : other = task := Nat.add_right_cancel (hother.trans hlength.symm)
      subst hsame
      exact .inr (.inl (mem_append_right _ (mem_singleton_self other)))

theorem owned_finish {task : Option ℕ} (h : s.Owned)
    (hworker : s.workers[w]? = some (.running task)) (panicked : Bool) :
    Owned { s with
      workers := s.workers.set w .idle
      taskPanics := s.taskPanics + panicked.toNat } := by
  have howner := h.owner
  rw [owners] at howner
  have hset := countP_set_add Worker.owns .idle hworker
  have hrunning : Worker.owns (.running task) = false := rfl
  have hidle : Worker.owns .idle = false := rfl
  rw [hrunning, hidle] at hset
  refine ⟨?_, h.slot, h.fresh, h.once, h.replaced, h.returns, h.newest, h.cleaning,
    fun hfailed => (set_eq_nil_iff _).mpr (h.failures hfailed),
    fun hnone => h.disconnected ((set_eq_nil_iff _).mp hnone)⟩
  rw [owners]
  dsimp only
  omega

theorem owned_step (h : s.Owned) {event : TaskEvent} (hstep : s.step event = some after) :
    after.Owned := by
  cases event with
  | submit =>
    cases hstep
    exact owned_submit h
  | send ix =>
    obtain ⟨submission, hsubmission, hstep⟩ := bind_eq_some_iff.mp hstep
    split_ifs at hstep with hphase
    cases hstep
    exact owned_send h hsubmission hphase
  | clean ix =>
    obtain ⟨submission, hsubmission, hstep⟩ := bind_eq_some_iff.mp hstep
    split_ifs at hstep with hphase
    cases hstep
    exact owned_clean h hsubmission hphase
  | spawn =>
    cases hstep
    exact owned_spawn h
  | receive w =>
    obtain ⟨worker, hworker, hstep⟩ := bind_eq_some_iff.mp hstep
    split_ifs at hstep with hidle
    exact owned_receive h (hidle ▸ hworker) hstep
  | take w =>
    obtain ⟨worker, hworker, hstep⟩ := bind_eq_some_iff.mp hstep
    split_ifs at hstep with hreceived
    cases hstep
    exact owned_take h (hreceived ▸ hworker)
  | finish w panicked =>
    obtain ⟨worker, hworker, hstep⟩ := bind_eq_some_iff.mp hstep
    cases worker with
    | idle => cases hstep
    | received => cases hstep
    | running task =>
      cases hstep
      exact owned_finish h hworker panicked

theorem Drained.no_owner (h : s.Drained) : s.owners = 0 := by
  have hworkers : s.workers.countP Worker.owns = 0 := by
    rw [countP_eq_zero]
    intro worker hmem howns
    exact h.workers worker hmem (of_decide_eq_true howns)
  have hsubmissions : s.submissions.countP Submission.owns = 0 := by
    rw [countP_eq_zero]
    intro submission hmem howns
    exact absurd ((h.submissions submission hmem).symm.trans howns) false_ne_true
  rw [owners, h.queue, hworkers, hsubmissions]
  rfl

theorem Owned.free (h : s.Owned) (hnone : s.owners = 0) : s.slot = none := by
  have howner := h.owner
  rw [hnone] at howner
  cases hslot : s.slot with
  | none => rfl
  | some task =>
    rw [hslot] at howner
    cases howner

theorem Owned.exact (h : s.Owned) : s.Exact where
  owner := h.owner
  once := h.once
  replaced submission hmem old hold := (h.replaced submission hmem old hold).2
  newest := by
    intro hsent hdrained task htask
    rcases h.newest task htask with hslot | hstarted | hfailed
    · rw [h.free hdrained.no_owner] at hslot
      cases hslot
    · exact hstarted
    · rw [hsent] at hfailed
      exact absurd hfailed (Nat.lt_irrefl 0)
  returns := by
    intro submission hmem
    rw [h.returns submission hmem, isSome_iff_exists]
    constructor
    · rintro ⟨old, hold⟩
      exact ⟨old, hold, (h.replaced submission hmem old hold).2⟩
    · rintro ⟨old, hold, -⟩
      exact ⟨old, hold⟩
  failed := by
    intro hfailed hreturned
    have hworkers := h.failures hfailed
    refine h.free (Drained.no_owner ⟨h.disconnected hworkers, fun worker hmem => ?_, hreturned⟩)
    rw [hworkers] at hmem
    cases hmem

end

theorem owned_run {events : List TaskEvent} {s after : LatestTasks} (h : s.Owned)
    (hrun : s.run events = some after) : after.Owned := by
  induction events generalizing s with
  | nil =>
    cases hrun
    exact h
  | cons event events ih =>
    obtain ⟨next, hstep, hrest⟩ := bind_eq_some_iff.mp hrun
    exact ih (owned_step h hstep) hrest

theorem latest_task_runs_alone (threads : ℕ) (events : List TaskEvent) (s : LatestTasks)
    (hrun : (initial threads).run events = some s) : s.Exact :=
  (owned_run (owned_initial threads) hrun).exact

theorem two_submissions_run_the_second :
    (initial 1).run [.submit, .send 0, .submit, .receive 0, .take 0, .finish 0 true] =
      some ⟨none, [], [.idle], [⟨.returned false, none⟩, ⟨.returned true, some 0⟩], [1], 0, 1⟩ ∧
    Exact ⟨none, [], [.idle], [⟨.returned false, none⟩, ⟨.returned true, some 0⟩], [1], 0, 1⟩ :=
  ⟨by decide, latest_task_runs_alone 1
    [.submit, .send 0, .submit, .receive 0, .take 0, .finish 0 true] _ (by decide)⟩

theorem disconnected_queue_runs_nothing :
    ¬∀ threads events s, (initial threads).run events = some s → s.Drained →
      ∀ task, task + 1 = s.submissions.length → task ∈ s.started := by
  intro hnewest
  have hrun : (initial 0).run [.submit, .send 0, .clean 0] =
      some ⟨none, [], [], [⟨.returned false, none⟩], [], 1, 0⟩ := by decide
  have hmem := hnewest 0 _ _ hrun ⟨rfl, fun _ h => (by cases h), by decide⟩ 0 rfl
  cases hmem

end LatestTasks

end GitComet.Store
