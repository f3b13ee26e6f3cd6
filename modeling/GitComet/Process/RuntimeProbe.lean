import GitComet.Basis.ByteOrder
import Mathlib.Data.List.Nodup

namespace GitComet.Process
open List Option ByteOrder

inductive GitExecutablePreference where
  | systemPath
  | custom (path : Bytes)
  deriving DecidableEq

inductive GitExecutableAvailability where
  | checking
  | available (versionOutput : List Char)
  | unavailable (detail : List Char)
  deriving DecidableEq

structure GitRuntimeState where
  preference : GitExecutablePreference
  availability : GitExecutableAvailability
  deriving DecidableEq

def GitRuntimeState.isAvailable (state : GitRuntimeState) : Bool :=
  match state.availability with
  | .available _ => true
  | .checking => false
  | .unavailable _ => false

structure RuntimeSlot where
  state : GitRuntimeState
  generation : BitVec 64
  probing : Bool
  lastProbe : Option ℕ
  cancellation : ℕ
  deriving DecidableEq

-- A probe is owned until its `run` or its drop; a finished one is dropped in a lock section
-- of its own.
inductive ProbeStatus where
  | claimed
  | finished
  | dropped
  deriving DecidableEq

structure GitRuntimeProbe where
  preference : GitExecutablePreference
  generation : BitVec 64
  cancellation : ℕ
  status : ProbeStatus
  claimedAt : ℕ
  deriving DecidableEq

-- The slot with the probes handed out. `selected`, `claims`, `changes` and a probe's `claimedAt`
-- record the past and are never read by a step.
structure Runtime where
  slot : RuntimeSlot
  probes : List GitRuntimeProbe
  cancelled : List ℕ
  tokens : ℕ
  selected : GitExecutablePreference
  claims : ℕ
  changes : ℕ
  deriving DecidableEq

def probeInterval : ℕ := 10000000000

namespace Runtime

def initial : Runtime where
  slot := ⟨⟨.systemPath, .checking⟩, 0, false, none, 0⟩
  probes := []
  cancelled := []
  tokens := 1
  selected := .systemPath
  claims := 0
  changes := 0

def selectGitExecutablePreference (s : Runtime) (preference : GitExecutablePreference) : Runtime :=
  if s.slot.state.preference ≠ preference then
    { s with
      slot := ⟨⟨preference, .checking⟩, s.slot.generation + 1, false, none, s.tokens⟩
      cancelled := s.slot.cancellation :: s.cancelled
      tokens := s.tokens + 1
      selected := preference
      changes := s.changes + 1 }
  else { s with selected := preference }

def refusesProbe (s : Runtime) (force : Bool) (now : ℕ) : Bool :=
  s.slot.probing || (!force && (s.slot.state.isAvailable ||
    s.slot.lastProbe.any fun at' => decide (now - at' < probeInterval)))

def beginGitRuntimeProbe (s : Runtime) (force : Bool) (now : ℕ) :
    Runtime × Option GitRuntimeProbe :=
  if s.refusesProbe force now then (s, none)
  else
    let generation := s.slot.generation + 1
    let probe : GitRuntimeProbe :=
      ⟨s.slot.state.preference, generation, s.slot.cancellation, .claimed, s.changes⟩
    ({ s with
        slot := { s.slot with probing := true, generation := generation, lastProbe := some now }
        probes := s.probes ++ [probe]
        claims := s.claims + 1 }, some probe)

def finishRun (s : Runtime) (probe : GitRuntimeProbe) (availability : GitExecutableAvailability) :
    RuntimeSlot × Option GitRuntimeState :=
  if probe.cancellation ∈ s.cancelled ∨ s.slot.generation ≠ probe.generation then (s.slot, none)
  else
    let next : GitRuntimeState := ⟨probe.preference, availability⟩
    ({ s.slot with state := next, probing := false }, some next)

def dropProbe (s : Runtime) (probe : GitRuntimeProbe) : RuntimeSlot :=
  if s.slot.generation = probe.generation then { s.slot with probing := false } else s.slot

end Runtime

inductive RuntimeEvent where
  | select (preference : GitExecutablePreference)
  | begin (force : Bool) (now : ℕ)
  | finish (ix : ℕ) (availability : GitExecutableAvailability)
  | drop (ix : ℕ)
  deriving DecidableEq

namespace Runtime

def step (s : Runtime) : RuntimeEvent → Option Runtime
  | .select preference => some (s.selectGitExecutablePreference preference)
  | .begin force now => some (s.beginGitRuntimeProbe force now).1
  | .finish ix availability => do
    let probe ← s.probes[ix]?
    if probe.status = .claimed then
      some { s with
        slot := (s.finishRun probe availability).1
        probes := s.probes.set ix { probe with status := .finished } }
    else none
  | .drop ix => do
    let probe ← s.probes[ix]?
    if probe.status ≠ .dropped then
      some { s with
        slot := s.dropProbe probe
        probes := s.probes.set ix { probe with status := .dropped } }
    else none

def run (s : Runtime) : List RuntimeEvent → Option Runtime
  | [] => some s
  | event :: events => do
    let s ← s.step event
    run s events

def Outstanding (s : Runtime) (ix : ℕ) : Prop :=
  ∃ probe, s.probes[ix]? = some probe ∧ probe.status = .claimed ∧
    probe.generation = s.slot.generation

structure Sound (s : Runtime) : Prop where
  probing : s.slot.probing = true ↔ ∃ ix, s.Outstanding ix
  single : ∀ ix ix', s.Outstanding ix → s.Outstanding ix' → ix = ix'
  superseded : ∀ probe ∈ s.probes, probe.claimedAt < s.changes → ∀ availability,
    s.finishRun probe availability = (s.slot, none) ∧ s.dropProbe probe = s.slot
  installed : s.slot.state.preference = s.selected
  reclaim : (¬∃ ix, s.Outstanding ix) → ∀ now, (s.beginGitRuntimeProbe true now).2.isSome = true

structure Counts (s : Runtime) (probe : GitRuntimeProbe) : Prop where
  token : probe.cancellation = probe.claimedAt
  past : probe.claimedAt ≤ s.changes
  bound : probe.generation.toNat ≤ s.claims + s.changes
  older : probe.claimedAt < s.changes → probe.generation.toNat < s.claims + s.changes
  preference : probe.claimedAt = s.changes → probe.preference = s.selected

structure Counted (s : Runtime) : Prop where
  generation : s.slot.generation.toNat = s.claims + s.changes
  token : s.slot.cancellation = s.changes
  tokens : s.tokens = s.changes + 1
  cancelled : ∀ token, token ∈ s.cancelled ↔ token < s.changes
  installed : s.slot.state.preference = s.selected
  counts : ∀ (ix : ℕ) probe, s.probes[ix]? = some probe → s.Counts probe
  apart : ∀ (ix ix' : ℕ) probe probe', s.probes[ix]? = some probe → s.probes[ix']? = some probe' →
    probe.generation = probe'.generation → ix = ix'
  probing : s.slot.probing = true ↔ ∃ ix, s.Outstanding ix

theorem counted_initial : Counted initial where
  generation := rfl
  token := rfl
  tokens := rfl
  cancelled _ := ⟨fun h => absurd h not_mem_nil, fun h => absurd h (Nat.not_lt_zero _)⟩
  installed := rfl
  counts _ _ h := by cases h
  apart _ _ _ _ h := by cases h
  probing := ⟨fun h => (by cases h), fun ⟨_, _, h, _⟩ => (by cases h)⟩

section
variable {s after : Runtime} {probe : GitRuntimeProbe} {ix : ℕ}

theorem next_generation (h : s.Counted) (hbound : s.claims + s.changes + 1 < 2 ^ 64) :
    (s.slot.generation + 1).toNat = s.claims + s.changes + 1 := by
  rw [BitVec.toNat_add, h.generation]
  exact Nat.mod_eq_of_lt hbound

theorem Counts.not_newer (h : s.Counts probe) {generation : BitVec 64}
    (hnew : s.claims + s.changes < generation.toNat) : probe.generation ≠ generation := by
  rintro rfl
  exact absurd h.bound (Nat.not_le.mpr hnew)

theorem Counted.superseded (h : s.Counted) (hcounts : s.Counts probe)
    (holder : probe.claimedAt < s.changes) : s.slot.generation ≠ probe.generation := by
  intro heq
  have hless := hcounts.older holder
  rw [← heq, h.generation] at hless
  exact Nat.lt_irrefl _ hless

theorem Counted.token_cancelled (h : s.Counted) (hcounts : s.Counts probe) :
    probe.cancellation ∈ s.cancelled ↔ probe.claimedAt < s.changes := by
  rw [h.cancelled, hcounts.token]

theorem counted_select (h : s.Counted) (preference : GitExecutablePreference)
    (hbound : (s.selectGitExecutablePreference preference).claims +
      (s.selectGitExecutablePreference preference).changes < 2 ^ 64) :
    (s.selectGitExecutablePreference preference).Counted := by
  rw [selectGitExecutablePreference] at hbound ⊢
  split_ifs at hbound ⊢ with hchange
  · have hnext := next_generation h hbound
    have hnew : s.claims + s.changes < (s.slot.generation + 1).toNat := by
      rw [hnext]
      exact Nat.lt_succ_self _
    refine ⟨hnext, h.tokens, congrArg (· + 1) h.tokens, fun token => ?_, rfl,
      fun ix probe hprobe => ?_, h.apart, fun hprobing => (by cases hprobing), ?_⟩
    · rw [mem_cons, h.cancelled, h.token, Nat.lt_succ_iff_lt_or_eq, or_comm]
    · have hcounts := h.counts ix probe hprobe
      exact ⟨hcounts.token, hcounts.past.trans (Nat.le_succ _), hcounts.bound.trans (Nat.le_succ _),
        fun _ => Nat.lt_succ_of_le hcounts.bound, fun heq => absurd heq
          (Nat.ne_of_lt (Nat.lt_succ_of_le hcounts.past))⟩
    · rintro ⟨ix, probe, hprobe, -, hgeneration⟩
      exact absurd hgeneration ((h.counts ix probe hprobe).not_newer hnew)
  · have hsame : s.slot.state.preference = preference := not_not.mp hchange
    refine ⟨h.generation, h.token, h.tokens, h.cancelled, hsame, fun ix probe hprobe => ?_, h.apart,
      h.probing⟩
    have hcounts := h.counts ix probe hprobe
    refine ⟨hcounts.token, hcounts.past, hcounts.bound, hcounts.older, fun heq => ?_⟩
    exact (hcounts.preference heq).trans (h.installed.symm.trans hsame)

variable {probes : List GitRuntimeProbe} {new : GitRuntimeProbe}

theorem getElem?_concat_some (h : (probes ++ [new])[ix]? = some probe) :
    probes[ix]? = some probe ∨ ix = probes.length ∧ probe = new := by
  rcases Nat.lt_trichotomy ix probes.length with hlt | rfl | hgt
  · rw [getElem?_append_left hlt] at h
    exact .inl h
  · rw [getElem?_concat_length, some.injEq] at h
    exact .inr ⟨rfl, h.symm⟩
  · rw [getElem?_eq_none (by rw [length_append]; exact hgt)] at h
    cases h

theorem counted_begin (h : s.Counted) (force : Bool) (now : ℕ)
    (hbound : (s.beginGitRuntimeProbe force now).1.claims +
      (s.beginGitRuntimeProbe force now).1.changes < 2 ^ 64) :
    (s.beginGitRuntimeProbe force now).1.Counted := by
  rw [beginGitRuntimeProbe] at hbound ⊢
  split_ifs at hbound ⊢ with hrefused
  · exact h
  · have hbound : s.claims + s.changes + 1 < 2 ^ 64 := by
      rw [Nat.add_right_comm]
      exact hbound
    have hnext := next_generation h hbound
    have hnew : s.claims + s.changes < (s.slot.generation + 1).toNat := by
      rw [hnext]
      exact Nat.lt_succ_self _
    have htotal : s.claims + 1 + s.changes = s.claims + s.changes + 1 := Nat.add_right_comm _ _ _
    refine ⟨hnext.trans htotal.symm, h.token, h.tokens, h.cancelled, h.installed,
      fun ix probe hprobe => ?_, fun ix ix' probe probe' hprobe hprobe' hsame => ?_,
      fun _ => ?_, fun _ => rfl⟩
    · rcases getElem?_concat_some hprobe with hold | ⟨-, rfl⟩
      · have hcounts := h.counts ix probe hold
        refine ⟨hcounts.token, hcounts.past, ?_, fun _ => ?_, hcounts.preference⟩
        · rw [htotal]
          exact hcounts.bound.trans (Nat.le_succ _)
        · rw [htotal]
          exact Nat.lt_succ_of_le hcounts.bound
      · refine ⟨h.token, Nat.le_refl _, ?_, fun hless => absurd hless (Nat.lt_irrefl _),
          fun _ => h.installed⟩
        rw [htotal]
        exact hnext.le
    · rcases getElem?_concat_some hprobe with hold | ⟨rfl, rfl⟩
      · rcases getElem?_concat_some hprobe' with hold' | ⟨rfl, rfl⟩
        · exact h.apart ix ix' probe probe' hold hold' hsame
        · exact absurd hsame ((h.counts ix probe hold).not_newer hnew)
      · rcases getElem?_concat_some hprobe' with hold' | ⟨rfl, rfl⟩
        · exact absurd hsame.symm ((h.counts ix' probe' hold').not_newer hnew)
        · rfl
    · exact ⟨s.probes.length, _, getElem?_concat_length, rfl, rfl⟩

theorem getElem?_set_some {ix' : ℕ} (h : (probes.set ix new)[ix']? = some probe) :
    ix' = ix ∧ probe = new ∨ ix' ≠ ix ∧ probes[ix']? = some probe := by
  rcases eq_or_ne ix' ix with rfl | hne
  · rw [getElem?_set_self'] at h
    obtain ⟨_, -, rfl⟩ := map_eq_some_iff.mp h
    exact .inl ⟨rfl, rfl⟩
  · rw [getElem?_set_ne hne.symm] at h
    exact .inr ⟨hne, h⟩

theorem counted_settle (h : s.Counted) (hprobe : s.probes[ix]? = some probe)
    (status : ProbeStatus) (hstatus : status ≠ .claimed) (slot : RuntimeSlot)
    (hgeneration : slot.generation = s.slot.generation)
    (htoken : slot.cancellation = s.slot.cancellation)
    (hinstalled : slot.state.preference = s.selected)
    (hheld : s.slot.generation = probe.generation → slot.probing = false)
    (hfree : s.slot.generation ≠ probe.generation → slot.probing = s.slot.probing) :
    Counted { s with
      slot := slot, probes := s.probes.set ix { probe with status := status } } := by
  have hcounts := h.counts ix probe hprobe
  refine ⟨hgeneration.symm ▸ h.generation, htoken.trans h.token, h.tokens, h.cancelled,
    hinstalled, fun ix' probe' hprobe' => ?_,
    fun ix' ix'' probe' probe'' hprobe' hprobe'' hsame => ?_, ?_⟩
  · rcases getElem?_set_some hprobe' with ⟨-, rfl⟩ | ⟨-, hold⟩
    · exact ⟨hcounts.token, hcounts.past, hcounts.bound, hcounts.older, hcounts.preference⟩
    · have hcounts' := h.counts ix' probe' hold
      exact ⟨hcounts'.token, hcounts'.past, hcounts'.bound, hcounts'.older, hcounts'.preference⟩
  · rcases getElem?_set_some hprobe' with ⟨rfl, rfl⟩ | ⟨-, hold'⟩
    · rcases getElem?_set_some hprobe'' with ⟨rfl, rfl⟩ | ⟨-, hold''⟩
      · rfl
      · exact h.apart _ _ probe probe'' hprobe hold'' hsame
    · rcases getElem?_set_some hprobe'' with ⟨rfl, rfl⟩ | ⟨-, hold''⟩
      · exact h.apart _ _ probe' probe hold' hprobe hsame
      · exact h.apart _ _ probe' probe'' hold' hold'' hsame
  · by_cases hcurrent : s.slot.generation = probe.generation
    · refine ⟨fun hprobing => absurd ((hheld hcurrent).symm.trans hprobing) Bool.false_ne_true, ?_⟩
      rintro ⟨ix', probe', hprobe', hclaimed, hgen⟩
      rcases getElem?_set_some hprobe' with ⟨-, rfl⟩ | ⟨hne, hold⟩
      · exact absurd hclaimed hstatus
      · have hsame : probe'.generation = probe.generation :=
          hgen.trans (hgeneration.trans hcurrent)
        exact absurd (h.apart ix' ix probe' probe hold hprobe hsame) hne
    · refine Iff.trans (by rw [hfree hcurrent]) (h.probing.trans ⟨?_, ?_⟩)
      · rintro ⟨ix', probe', hprobe', hclaimed, hgen⟩
        have hne : ix ≠ ix' := by
          rintro rfl
          rw [hprobe, some.injEq] at hprobe'
          subst hprobe'
          exact hcurrent hgen.symm
        refine ⟨ix', probe', ?_, hclaimed, hgen.trans hgeneration.symm⟩
        rw [getElem?_set_ne hne]
        exact hprobe'
      · rintro ⟨ix', probe', hprobe', hclaimed, hgen⟩
        rcases getElem?_set_some hprobe' with ⟨-, rfl⟩ | ⟨-, hold⟩
        · exact absurd hclaimed hstatus
        · exact ⟨ix', probe', hold, hclaimed, hgen.trans hgeneration⟩

theorem Counted.current (h : s.Counted) (hcounts : s.Counts probe)
    (hcurrent : s.slot.generation = probe.generation) : probe.claimedAt = s.changes := by
  rcases Nat.lt_or_eq_of_le hcounts.past with hless | heq
  · exact absurd hcurrent (h.superseded hcounts hless)
  · exact heq

theorem counted_finish (h : s.Counted) (hprobe : s.probes[ix]? = some probe)
    (availability : GitExecutableAvailability) :
    Counted { s with
      slot := (s.finishRun probe availability).1
      probes := s.probes.set ix { probe with status := .finished } } := by
  have hcounts := h.counts ix probe hprobe
  by_cases hcurrent : s.slot.generation = probe.generation
  · have hnow := h.current hcounts hcurrent
    have hlive : ¬(probe.cancellation ∈ s.cancelled ∨ s.slot.generation ≠ probe.generation) := by
      rw [h.token_cancelled hcounts, hnow]
      exact not_or.mpr ⟨Nat.lt_irrefl _, not_not.mpr hcurrent⟩
    rw [finishRun, if_neg hlive]
    exact counted_settle h hprobe .finished (by decide) _ rfl rfl (hcounts.preference hnow)
      (fun _ => rfl) (fun hne => absurd hcurrent hne)
  · rw [finishRun, if_pos (.inr hcurrent)]
    exact counted_settle h hprobe .finished (by decide) _ rfl rfl h.installed
      (fun heq => absurd heq hcurrent) (fun _ => rfl)

theorem counted_drop (h : s.Counted) (hprobe : s.probes[ix]? = some probe) :
    Counted { s with
      slot := s.dropProbe probe
      probes := s.probes.set ix { probe with status := .dropped } } := by
  by_cases hcurrent : s.slot.generation = probe.generation
  · rw [dropProbe, if_pos hcurrent]
    exact counted_settle h hprobe .dropped (by decide) _ rfl rfl h.installed (fun _ => rfl)
      (fun hne => absurd hcurrent hne)
  · rw [dropProbe, if_neg hcurrent]
    exact counted_settle h hprobe .dropped (by decide) _ rfl rfl h.installed
      (fun heq => absurd heq hcurrent) (fun _ => rfl)

variable {event : RuntimeEvent}

theorem counted_step (h : s.Counted) (hstep : s.step event = some after)
    (hbound : after.claims + after.changes < 2 ^ 64) : after.Counted := by
  cases event with
  | select preference =>
    cases hstep
    exact counted_select h preference hbound
  | begin force now =>
    cases hstep
    exact counted_begin h force now hbound
  | finish ix availability =>
    obtain ⟨probe, hprobe, hstep⟩ := bind_eq_some_iff.mp hstep
    split_ifs at hstep
    cases hstep
    exact counted_finish h hprobe availability
  | drop ix =>
    obtain ⟨probe, hprobe, hstep⟩ := bind_eq_some_iff.mp hstep
    split_ifs at hstep
    cases hstep
    exact counted_drop h hprobe

theorem step_total_le (hstep : s.step event = some after) :
    s.claims + s.changes ≤ after.claims + after.changes := by
  cases event with
  | select preference =>
    cases hstep
    rw [selectGitExecutablePreference]
    split_ifs
    · exact Nat.le_succ _
    · exact Nat.le_refl _
  | begin force now =>
    cases hstep
    rw [beginGitRuntimeProbe]
    split_ifs
    · exact Nat.le_refl _
    · exact Nat.add_le_add_right (Nat.le_succ _) _
  | finish ix availability =>
    obtain ⟨probe, -, hstep⟩ := bind_eq_some_iff.mp hstep
    split_ifs at hstep
    cases hstep
    exact Nat.le_refl _
  | drop ix =>
    obtain ⟨probe, -, hstep⟩ := bind_eq_some_iff.mp hstep
    split_ifs at hstep
    cases hstep
    exact Nat.le_refl _

end

variable {events : List RuntimeEvent}

theorem run_total_le {s after : Runtime}
    (hrun : s.run events = some after) : s.claims + s.changes ≤ after.claims + after.changes := by
  induction events generalizing s with
  | nil =>
    cases hrun
    exact Nat.le_refl _
  | cons event events ih =>
    obtain ⟨next, hstep, hrest⟩ := bind_eq_some_iff.mp hrun
    exact (step_total_le hstep).trans (ih hrest)

theorem counted_run {s after : Runtime} (h : s.Counted)
    (hrun : s.run events = some after) (hbound : after.claims + after.changes < 2 ^ 64) :
    after.Counted := by
  induction events generalizing s with
  | nil =>
    cases hrun
    exact h
  | cons event events ih =>
    obtain ⟨next, hstep, hrest⟩ := bind_eq_some_iff.mp hrun
    exact ih (counted_step h hstep ((run_total_le hrest).trans_lt hbound)) hrest

theorem Counted.sound {s : Runtime} (h : s.Counted) : s.Sound where
  probing := h.probing
  single := by
    rintro ix ix' ⟨probe, hprobe, -, hgeneration⟩ ⟨probe', hprobe', -, hgeneration'⟩
    exact h.apart ix ix' probe probe' hprobe hprobe' (hgeneration.trans hgeneration'.symm)
  superseded := by
    intro probe hmem holder availability
    obtain ⟨ix, hprobe⟩ := getElem?_of_mem hmem
    have hne := h.superseded (h.counts ix probe hprobe) holder
    rw [finishRun, if_pos (.inr hne), dropProbe, if_neg hne]
    exact ⟨rfl, rfl⟩
  installed := h.installed
  reclaim := by
    intro hnone now
    have hfree : s.slot.probing = false := by
      rw [Bool.eq_false_iff, ne_eq, h.probing]
      exact hnone
    have haccepts : s.refusesProbe true now = false := by
      rw [refusesProbe, hfree]
      rfl
    rw [beginGitRuntimeProbe, haccepts]
    rfl

theorem probes_stay_sound (events : List RuntimeEvent) (s : Runtime)
    (hrun : initial.run events = some s) (hbound : s.claims + s.changes < 2 ^ 64) : s.Sound :=
  (counted_run counted_initial hrun hbound).sound

theorem one_probe_stays_sound :
    initial.run [.begin false 0, .finish 0 (.available ['2'])] =
      some ⟨⟨⟨.systemPath, .available ['2']⟩, 1, false, some 0, 0⟩,
        [⟨.systemPath, 1, 0, .finished, 0⟩], [], 1, .systemPath, 1, 0⟩ ∧
    Sound ⟨⟨⟨.systemPath, .available ['2']⟩, 1, false, some 0, 0⟩,
        [⟨.systemPath, 1, 0, .finished, 0⟩], [], 1, .systemPath, 1, 0⟩ :=
  ⟨by decide, probes_stay_sound [.begin false 0, .finish 0 (.available ['2'])] _ (by decide)
    (by decide)⟩

def alternating (preference other : GitExecutablePreference) : ℕ → List RuntimeEvent
  | 0 => []
  | count + 1 => .select other :: alternating other preference count

theorem run_append (s : Runtime) (events later : List RuntimeEvent) :
    s.run (events ++ later) = (s.run events).bind (fun next => next.run later) := by
  induction events generalizing s with
  | nil => rfl
  | cons event events ih =>
    rw [cons_append, run, run]
    refine Eq.trans ?_ (bind_assoc _ _ _).symm
    exact bind_congr fun next _ => ih next

theorem alternating_run (count : ℕ) {s : Runtime} {preference other : GitExecutablePreference}
    (hne : preference ≠ other) (hslot : s.slot.state.preference = preference) :
    ∃ after, s.run (alternating preference other (count + 1)) = some after ∧
      after.probes = s.probes ∧ after.claims = s.claims ∧ after.slot.probing = false ∧
      after.slot.generation = s.slot.generation + BitVec.ofNat 64 (count + 1) := by
  have hchange : s.slot.state.preference ≠ other := hslot.symm ▸ hne
  induction count generalizing s preference other with
  | zero =>
    refine ⟨s.selectGitExecutablePreference other, rfl, ?_⟩
    rw [selectGitExecutablePreference, if_pos hchange]
    exact ⟨rfl, rfl, rfl, rfl⟩
  | succ count ih =>
    have hnext : (s.selectGitExecutablePreference other).slot.state.preference = other := by
      rw [selectGitExecutablePreference, if_pos hchange]
    obtain ⟨after, hrun, hprobes, hclaims, hprobing, hgeneration⟩ :=
      ih hne.symm hnext (hnext.symm ▸ hne.symm)
    refine ⟨after, hrun, hprobes.trans ?_, hclaims.trans ?_, hprobing, hgeneration.trans ?_⟩
    · rw [selectGitExecutablePreference, if_pos hchange]
    · rw [selectGitExecutablePreference, if_pos hchange]
    · have hsucc : BitVec.ofNat 64 (1 + (count + 1)) = 1 + BitVec.ofNat 64 (count + 1) :=
        BitVec.ofNat_add 1 (count + 1)
      rw [selectGitExecutablePreference, if_pos hchange, BitVec.add_assoc,
        Nat.add_comm (count + 1) 1, hsucc]

theorem generations_wrap_over_changes :
    ¬∀ events s, initial.run events = some s → s.claims < 2 ^ 64 → s.Sound := by
  intro hsound
  let claimed : Runtime := (initial.beginGitRuntimeProbe true 0).1
  have hne : GitExecutablePreference.systemPath ≠ .custom [] := by decide
  obtain ⟨after, hrun, hprobes, hclaims, hprobing, hgeneration⟩ :=
    alternating_run (s := claimed) (2 ^ 64 - 2) hne rfl
  have haccepts : after.refusesProbe true 0 = false := by
    rw [refusesProbe, hprobing]
    rfl
  have hfirst : claimed.slot.generation = 1 := rfl
  have hwrapped : after.slot.generation + 1 = 1 := by
    rw [hgeneration, hfirst]
    decide
  have hend : initial.run (.begin true 0 ::
      (alternating .systemPath (.custom []) (2 ^ 64 - 2 + 1) ++ [.begin true 0])) =
        some (after.beginGitRuntimeProbe true 0).1 := by
    rw [run, bind_eq_bind, step, bind_some, run_append, hrun]
    rfl
  have hfinal : ∀ s, s = (after.beginGitRuntimeProbe true 0).1 → s.claims = 2 ∧
      s.Outstanding 0 ∧ s.Outstanding 1 := by
    rintro s rfl
    let later : GitRuntimeProbe := ⟨after.slot.state.preference, after.slot.generation + 1,
      after.slot.cancellation, .claimed, after.changes⟩
    rw [beginGitRuntimeProbe, haccepts, if_neg Bool.false_ne_true]
    refine ⟨congrArg (· + 1) hclaims, ⟨⟨.systemPath, 1, 0, .claimed, 0⟩, ?_, rfl, hwrapped.symm⟩,
      ⟨later, ?_, rfl, rfl⟩⟩
    · rw [hprobes]
      rfl
    · rw [hprobes]
      rfl
  obtain ⟨htwo, hfirst, hsecond⟩ := hfinal _ rfl
  have hone := (hsound _ _ hend (by rw [htwo]; decide)).single 0 1 hfirst hsecond
  exact absurd hone Nat.zero_ne_one

end Runtime

end GitComet.Process
