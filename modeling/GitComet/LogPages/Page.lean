import GitComet.LogPages.Walk

namespace GitComet.LogPages
open List Option Nat Bool

def decodeBatch : ℕ := 2048

structure LogPagedWalkState where
  pending : List Commit
  walk : List Commit
  deriving DecidableEq

structure Gathered where
  batch : List Commit
  pending : List Commit
  walk : List Commit
  gate : CursorGate
  walkDone : Bool

variable (mode : HistoryMode) (author : Option AuthorFilter)

def included (commit : Commit) : Bool := modeIncludes mode commit.parentIds.length

def gatherWalk (cap : ℕ) (batch : List Commit) (gate : CursorGate) : List Commit → Gathered
  | [] => ⟨batch, [], [], gate, batch.length < cap⟩
  | commit :: walk =>
    if batch.length < cap then
      let skipped := gate.shouldSkip commit.id
      if skipped.2 then gatherWalk cap batch skipped.1 walk
      else if included mode commit then gatherWalk cap (batch ++ [commit]) skipped.1 walk
      else gatherWalk cap batch skipped.1 walk
    else ⟨batch, [], commit :: walk, gate, false⟩

def gather (cap : ℕ) (walk : List Commit) (gate : CursorGate) (batch : List Commit) :
    List Commit → Gathered
  | [] => gatherWalk mode cap batch gate walk
  | commit :: pending =>
    if batch.length < cap then gather cap walk gate (batch ++ [commit]) pending
    else ⟨batch, commit :: pending, walk, gate, false⟩

def accepts (commit : Commit) : Bool :=
  match author with
  | none => true
  | some filter => commit.author.any filter.isMatch

def collect (limit : ℕ) (commits : List Commit) : List Commit → List Commit × Option (List Commit)
  | [] => (commits, none)
  | commit :: batch =>
    if accepts author commit then
      if limit ≤ commits.length then (commits, some (commit :: batch))
      else collect limit (commits ++ [commit]) batch
    else collect limit commits batch

def batchCap (limit : ℕ) (commits : List Commit) : ℕ :=
  match author with
  | some _ => decodeBatch
  | none => min decodeBatch (limit - commits.length + 1)

def decodeLen (limit : ℕ) (commits batch : List Commit) : ℕ :=
  match author with
  | some _ => batch.length
  | none => min batch.length (limit - commits.length)

structure PageBuild where
  commits : List Commit
  hasMore : Bool
  state : LogPagedWalkState
  deriving DecidableEq

def logPageLoop (limit : ℕ) :
    ℕ → List Commit → LogPagedWalkState → CursorGate → PageBuild
  | 0, commits, state, _ => ⟨commits, false, state⟩
  | fuel + 1, commits, state, gate =>
    let gathered := gather mode (batchCap author limit commits) state.walk gate [] state.pending
    let batch := gathered.batch
    if batch.isEmpty then ⟨commits, false, ⟨gathered.pending, gathered.walk⟩⟩
    else
      let decoded := decodeLen author limit commits batch
      let pending := batch.drop decoded ++ gathered.pending
      match collect author limit commits (batch.take decoded) with
      | (commits, some rest) => ⟨commits, true, ⟨rest ++ pending, gathered.walk⟩⟩
      | (commits, none) =>
        if limit ≤ commits.length ∧ pending.isEmpty = false then
          ⟨commits, true, ⟨pending, gathered.walk⟩⟩
        else if gathered.walkDone then ⟨commits, false, ⟨pending, gathered.walk⟩⟩
        else logPageLoop limit fuel commits ⟨pending, gathered.walk⟩ gathered.gate

def logPageFromPagedWalkState (limit : ℕ) (state : LogPagedWalkState) (gate : CursorGate) :
    PageBuild :=
  logPageLoop mode author limit (state.pending.length + state.walk.length + 1) [] state gate

variable {gate : CursorGate} {walk batch pending : List Commit}

section

variable {mode}

def available (mode : HistoryMode) (pending walk : List Commit) (gate : CursorGate) : List Commit :=
  pending ++ (gate.passed walk).filter (included mode)

theorem available_skip {commit : Commit}
    (hskip : (gate.shouldSkip commit.id).2 ∨ included mode commit = false) :
    available mode [] (commit :: walk) gate =
      available mode [] walk (gate.shouldSkip commit.id).1 := by
  rw [available, available]
  cases hgate : (gate.shouldSkip commit.id).2 with
  | true => rw [CursorGate.passed_skip hgate]
  | false =>
    have hexcluded := hskip.resolve_left (by simp [hgate])
    rw [CursorGate.passed_keep hgate, filter_cons_of_neg (by simp [hexcluded])]

theorem available_keep {commit : Commit}
    (hskip : (gate.shouldSkip commit.id).2 = false) (hincluded : included mode commit) :
    available mode [] (commit :: walk) gate =
      commit :: available mode [] walk (gate.shouldSkip commit.id).1 := by
  rw [available, available, CursorGate.passed_keep hskip, filter_cons_of_pos hincluded]
  rfl

structure GatherSpec (mode : HistoryMode) (cap : ℕ) (walk : List Commit) (gate : CursorGate)
    (batch pending : List Commit) (gathered : Gathered) : Prop where
  whole : gathered.batch ++ available mode gathered.pending gathered.walk gathered.gate =
    batch ++ available mode pending walk gate
  bounded : batch.length ≤ cap → gathered.batch.length ≤ cap
  full : gathered.walkDone = false → cap ≤ gathered.batch.length
  ended : gathered.walkDone = true → gathered.pending = [] ∧ gathered.walk = []
  shrinks : gathered.batch.length + gathered.pending.length + gathered.walk.length ≤
    batch.length + pending.length + walk.length
  started : (batch ≠ [] ∨ pending ≠ [] → gate.started = true) →
    gathered.batch ≠ [] ∨ gathered.pending ≠ [] → gathered.gate.started = true

theorem gather_full {cap : ℕ} (hcap : ¬batch.length < cap) :
    GatherSpec mode cap walk gate batch pending ⟨batch, pending, walk, gate, false⟩ where
  whole := rfl
  bounded := id
  full := fun _ => not_lt.mp hcap
  ended := fun hdone => absurd hdone false_ne_true
  shrinks := le_refl _
  started := id

theorem gatherWalk_spec (cap : ℕ) (walk batch : List Commit) (gate : CursorGate) :
    GatherSpec mode cap walk gate batch [] (gatherWalk mode cap batch gate walk) := by
  induction walk generalizing batch gate with
  | nil =>
    refine ⟨rfl, id, fun hdone => ?_, fun _ => ⟨rfl, rfl⟩, le_refl _, id⟩
    simpa [gatherWalk] using hdone
  | cons commit walk ih =>
    rw [gatherWalk]
    by_cases hcap : batch.length < cap
    · rw [if_pos hcap]
      dsimp only
      cases hskip : (gate.shouldSkip commit.id).2 with
      | true =>
        have hih := ih batch (gate.shouldSkip commit.id).1
        rw [if_pos rfl]
        refine ⟨?_, hih.bounded, hih.full, hih.ended, ?_, fun hbatch => hih.started ?_⟩
        · rw [hih.whole, available_skip (.inl hskip)]
        · have hshrinks := hih.shrinks
          rw [length_cons]
          omega
        · intro hne
          have hkeeps := CursorGate.started_keeps (hbatch hne) commit.id
          exact absurd (hskip.symm.trans hkeeps) Bool.noConfusion
      | false =>
        have hstarted := CursorGate.keep_started hskip
        rw [if_neg Bool.false_ne_true]
        cases hincluded : included mode commit with
        | true =>
          have hih := ih (batch ++ [commit]) (gate.shouldSkip commit.id).1
          rw [if_pos rfl]
          refine ⟨?_, fun _ => hih.bounded ?_, hih.full, hih.ended, ?_,
            fun _ => hih.started fun _ => hstarted⟩
          · rw [hih.whole, available_keep hskip hincluded, append_assoc]
            rfl
          · rw [length_append]
            exact hcap
          · have hshrinks := hih.shrinks
            rw [length_append] at hshrinks
            simp only [length_cons, length_nil] at hshrinks ⊢
            omega
        | false =>
          have hih := ih batch (gate.shouldSkip commit.id).1
          rw [if_neg Bool.false_ne_true]
          refine ⟨?_, hih.bounded, hih.full, hih.ended, ?_, fun _ => hih.started fun _ => hstarted⟩
          · rw [hih.whole, available_skip (.inr hincluded)]
          · have hshrinks := hih.shrinks
            rw [length_cons]
            omega
    · rw [if_neg hcap]
      exact gather_full hcap

theorem gather_spec (cap : ℕ) (walk : List Commit) (gate : CursorGate)
    (batch pending : List Commit) :
    GatherSpec mode cap walk gate batch pending (gather mode cap walk gate batch pending) := by
  induction pending generalizing batch with
  | nil => exact gatherWalk_spec cap walk batch gate
  | cons commit pending ih =>
    rw [gather]
    by_cases hcap : batch.length < cap
    · have hih := ih (batch ++ [commit])
      rw [if_pos hcap]
      refine ⟨?_, fun _ => hih.bounded ?_, hih.full, hih.ended, ?_,
        fun hgate => hih.started fun _ => hgate (.inr (cons_ne_nil _ _))⟩
      · rw [hih.whole, append_assoc]
        rfl
      · rw [length_append]
        exact hcap
      · have hshrinks := hih.shrinks
        rw [length_append] at hshrinks
        simp only [length_cons, length_nil] at hshrinks ⊢
        omega
    · rw [if_neg hcap]
      exact gather_full hcap

theorem gatherWalk_pending (cap : ℕ) (batch : List Commit) (gate : CursorGate)
    (walk : List Commit) : (gatherWalk mode cap batch gate walk).pending = [] := by
  induction walk generalizing batch gate with
  | nil => rfl
  | cons commit walk ih =>
    rw [gatherWalk]
    dsimp only
    split_ifs
    · exact ih batch _
    · exact ih (batch ++ [commit]) _
    · exact ih batch _
    · rfl

theorem gather_pending {cap : ℕ} (hcap : batch.length + pending.length ≤ cap) :
    (gather mode cap walk gate batch pending).pending = [] := by
  induction pending generalizing batch with
  | nil => exact gatherWalk_pending cap batch gate walk
  | cons commit pending ih =>
    rw [length_cons] at hcap
    rw [gather, if_pos (by omega)]
    exact ih (by rw [length_append, length_singleton]; omega)

end

variable {limit : ℕ} {commits : List Commit}

section

variable {author}

structure CollectSpec (author : Option AuthorFilter) (limit : ℕ) (commits batch : List Commit)
    (collected : List Commit × Option (List Commit)) : Prop where
  whole : collected.1 ++ (collected.2.getD []).filter (accepts author) =
    commits ++ batch.filter (accepts author)
  bounded : collected.1.length ≤ limit
  putBack : ∀ rest ∈ collected.2, collected.1.length = limit ∧
    rest.filter (accepts author) ≠ [] ∧ rest.length ≤ batch.length

theorem collect_spec (batch : List Commit) (hcommits : commits.length ≤ limit) :
    CollectSpec author limit commits batch (collect author limit commits batch) := by
  induction batch generalizing commits with
  | nil => exact ⟨rfl, hcommits, fun _ hrest => by cases hrest⟩
  | cons commit batch ih =>
    rw [collect]
    cases haccepts : accepts author commit with
    | true =>
      by_cases hfull : limit ≤ commits.length
      · rw [if_pos rfl, if_pos hfull]
        refine ⟨rfl, hcommits, fun rest hrest => ?_⟩
        cases hrest
        refine ⟨le_antisymm hcommits hfull, ?_, le_refl _⟩
        rw [filter_cons_of_pos haccepts]
        exact cons_ne_nil _ _
      · have hnext : (commits ++ [commit]).length ≤ limit := by
          rw [length_append, length_singleton]
          omega
        have hih := ih hnext
        rw [if_pos rfl, if_neg hfull]
        refine ⟨?_, hih.bounded, fun rest hrest => ?_⟩
        · rw [hih.whole, filter_cons_of_pos haccepts, append_assoc]
          rfl
        · obtain ⟨hlimit, hmatch, hlength⟩ := hih.putBack rest hrest
          exact ⟨hlimit, hmatch, hlength.trans (le_succ _)⟩
    | false =>
      have hih := ih hcommits
      rw [if_neg Bool.false_ne_true]
      refine ⟨?_, hih.bounded, fun rest hrest => ?_⟩
      · rw [hih.whole, filter_cons_of_neg (by simp [haccepts])]
      · obtain ⟨hlimit, hmatch, hlength⟩ := hih.putBack rest hrest
        exact ⟨hlimit, hmatch, hlength.trans (le_succ _)⟩

theorem filter_accepts_none (commits : List Commit) : commits.filter (accepts none) = commits :=
  filter_eq_self.mpr fun _ _ => rfl

end

variable {state : LogPagedWalkState}

section

variable {mode author}

def toShow (mode : HistoryMode) (author : Option AuthorFilter) (state : LogPagedWalkState)
    (gate : CursorGate) : List Commit :=
  (available mode state.pending state.walk gate).filter (accepts author)

def Parked (author : Option AuthorFilter) (pending : List Commit) : Prop :=
  author.isSome = true → pending.length ≤ decodeBatch

structure PageBuilt (mode : HistoryMode) (author : Option AuthorFilter) (limit : ℕ)
    (shown : List Commit) (built : PageBuild) : Prop where
  commits : built.commits = shown.take limit
  hasMore : built.hasMore = decide (limit < shown.length)
  rest : built.hasMore = true → toShow mode author built.state CursorGate.opened =
    shown.drop limit
  parked : built.hasMore = true → Parked author built.state.pending

theorem pageBuilt_done (hcommits : commits.length ≤ limit) :
    PageBuilt mode author limit commits ⟨commits, false, state⟩ where
  commits := (take_of_length_le hcommits).symm
  hasMore := (decide_eq_false (not_lt.mpr hcommits)).symm
  rest := fun hmore => absurd hmore false_ne_true
  parked := fun hmore => absurd hmore false_ne_true

theorem pageBuilt_more {later : List Commit} (hcommits : commits.length = limit)
    (hlater : later ≠ []) (hstate : toShow mode author state CursorGate.opened = later)
    (hparked : Parked author state.pending) :
    PageBuilt mode author limit (commits ++ later) ⟨commits, true, state⟩ where
  commits := by rw [← hcommits, take_left]
  hasMore := by
    have hlength : 0 < later.length := length_pos_iff.mpr hlater
    simp only [length_append, true_eq_decide_iff]
    omega
  rest := fun _ => by rw [hstate, ← hcommits, drop_left]
  parked := fun _ => hparked

theorem decodeLen_le (limit : ℕ) (commits batch : List Commit) :
    decodeLen author limit commits batch ≤ batch.length := by
  cases author with
  | none => exact min_le_left _ _
  | some filter => exact le_refl _

theorem batchCap_pos (limit : ℕ) (commits : List Commit) : 0 < batchCap author limit commits := by
  cases author with
  | none => exact lt_min (by decide) (succ_pos _)
  | some filter => exact (by decide : 0 < 2048)

theorem decodeLen_all {collected : List Commit} (hcollected : collected = commits ++
      (batch.take (decodeLen author limit commits batch)).filter (accepts author))
    (hroom : collected.length < limit) : decodeLen author limit commits batch = batch.length := by
  cases author with
  | some filter => rfl
  | none =>
    rw [filter_accepts_none] at hcollected
    have hlength := congrArg length hcollected
    rw [length_append, length_take] at hlength
    rw [decodeLen] at hlength ⊢
    omega

theorem parked_pending (hparked : Parked author state.pending) (hauthor : author.isSome) :
    (gather mode (batchCap author limit commits) state.walk gate [] state.pending).pending =
      [] := by
  refine gather_pending ?_
  obtain ⟨filter, rfl⟩ := isSome_iff_exists.mp hauthor
  rw [length_nil, zero_add]
  exact hparked rfl

theorem toShow_opened (hgate : gate.started) :
    toShow mode author ⟨pending, walk⟩ CursorGate.opened =
      (available mode pending walk gate).filter (accepts author) := by
  rw [toShow, available, available, CursorGate.passed_started rfl, CursorGate.passed_started hgate]

theorem decodeLen_filtered
    (hauthor : author.isSome) : decodeLen author limit commits batch = batch.length := by
  obtain ⟨filter, rfl⟩ := isSome_iff_exists.mp hauthor
  rfl

theorem filter_accepts_ne_nil (hauthor : author.isSome → commits = []) (hne : commits ≠ []) :
    commits.filter (accepts author) ≠ [] := by
  cases author with
  | none => rwa [filter_accepts_none]
  | some filter => exact absurd (hauthor rfl) hne

theorem logPageLoop_built {fuel : ℕ} (hcommits : commits.length ≤ limit)
    (hparked : Parked author state.pending) (hgate : state.pending ≠ [] → gate.started)
    (hfuel : state.pending.length + state.walk.length < fuel) :
    PageBuilt mode author limit (commits ++ toShow mode author state gate)
      (logPageLoop mode author limit fuel commits state gate) := by
  induction fuel generalizing commits state gate with
  | zero => omega
  | succ fuel ih =>
    have hgather : GatherSpec mode (batchCap author limit commits) state.walk gate []
      state.pending _ := gather_spec _ _ _ _ _
    have hfiltered : author.isSome → (gather mode (batchCap author limit commits)
        state.walk gate [] state.pending).pending = [] := parked_pending hparked
    rw [logPageLoop]
    dsimp only
    generalize gather mode (batchCap author limit commits) state.walk gate [] state.pending =
      gathered at hgather hfiltered
    have hwhole : gathered.batch ++ available mode gathered.pending gathered.walk gathered.gate =
        available mode state.pending state.walk gate := hgather.whole
    have hended : gathered.walkDone →
        available mode gathered.pending gathered.walk gathered.gate = [] := by
      intro hdone
      rw [(hgather.ended hdone).1, (hgather.ended hdone).2]
      rfl
    cases hbatch : gathered.batch.isEmpty with
    | true =>
      rw [List.isEmpty_iff] at hbatch
      have hdone : gathered.walkDone := by
        by_contra hopen
        have hfull := hgather.full (eq_false_iff.mpr hopen)
        rw [hbatch, length_nil] at hfull
        exact absurd hfull (not_le.mpr (batchCap_pos limit commits))
      have hnothing : toShow mode author state gate = [] := by
        rw [toShow, ← hwhole, hbatch, hended hdone]
        rfl
      rw [if_pos rfl, hnothing, append_nil]
      exact pageBuilt_done hcommits
    | false =>
      rw [if_neg Bool.false_ne_true]
      have hne : gathered.batch ≠ [] := by
        rintro hnil
        rw [hnil] at hbatch
        cases hbatch
      have hstarted : gathered.gate.started :=
        hgather.started (fun hpending => hgate (hpending.resolve_left (fun h => h rfl)))
          (.inl hne)
      have hcollect : CollectSpec author limit commits _ _ := collect_spec
        (gathered.batch.take (decodeLen author limit commits gathered.batch)) hcommits
      have hleft : author.isSome → gathered.batch.drop
          (decodeLen author limit commits gathered.batch) ++ gathered.pending = [] := by
        intro hauthor
        rw [decodeLen_filtered hauthor, drop_length, hfiltered hauthor]
        rfl
      have hshown : commits ++ toShow mode author state gate = commits ++ (gathered.batch.take
              (decodeLen author limit commits gathered.batch)).filter (accepts author) ++
            (gathered.batch.drop (decodeLen author limit commits gathered.batch) ++
              available mode gathered.pending gathered.walk gathered.gate).filter
                (accepts author) := by
        rw [toShow, ← hwhole, append_assoc, ← filter_append, ← append_assoc, take_append_drop]
      generalize hd : decodeLen author limit commits gathered.batch = decoded at *
      generalize hcollected : collect author limit commits (gathered.batch.take decoded) =
        collected at hcollect ⊢
      obtain ⟨page, putBack⟩ := collected
      rw [← hcollect.whole, append_assoc, ← filter_append] at hshown
      rw [hshown]
      cases putBack with
      | some rest =>
        obtain ⟨hfull, hmatch, hlength⟩ := hcollect.putBack rest rfl
        refine pageBuilt_more hfull ?_ ?_ fun hauthor => ?_
        · rw [filter_append]
          exact append_ne_nil_of_left_ne_nil hmatch _
        · rw [toShow_opened hstarted, available, append_assoc, append_assoc]
          rfl
        · have hcap := hgather.bounded (zero_le _)
          obtain ⟨filter, rfl⟩ := isSome_iff_exists.mp hauthor
          rw [hleft rfl, append_nil]
          rw [length_take] at hlength
          exact hlength.trans ((min_le_right _ _).trans hcap)
      | none =>
        have hpage : page = commits ++
            (gathered.batch.take decoded).filter (accepts author) := by
          simpa using hcollect.whole
        dsimp only
        by_cases hfull : limit ≤ page.length ∧
            (gathered.batch.drop decoded ++ gathered.pending).isEmpty = false
        · rw [if_pos hfull]
          have hpending : gathered.batch.drop decoded ++ gathered.pending ≠ [] := by
            intro hnil
            rw [hnil] at hfull
            exact absurd hfull.2 Bool.noConfusion
          refine pageBuilt_more (le_antisymm hcollect.bounded hfull.1) ?_ ?_ fun hauthor => ?_
          · rw [getD_none, nil_append, available, ← append_assoc, filter_append]
            exact append_ne_nil_of_left_ne_nil (filter_accepts_ne_nil hleft hpending) _
          · rw [toShow_opened hstarted, available, append_assoc]
            rfl
          · rw [hleft hauthor]
            exact zero_le _
        · rw [if_neg hfull]
          have hall : decoded = gathered.batch.length := by
            by_cases hroom : page.length < limit
            · rw [← hd] at hpage ⊢
              exact decodeLen_all hpage hroom
            · have hnil : gathered.batch.drop decoded ++ gathered.pending = [] := by
                simpa [not_lt.mp hroom] using hfull
              have hle : decoded ≤ gathered.batch.length := hd ▸ decodeLen_le limit commits _
              have hover := drop_eq_nil_iff.mp (append_eq_nil_iff.mp hnil).1
              exact le_antisymm hle hover
          rw [hall, drop_length, nil_append, getD_none, nil_append]
          cases hdone : gathered.walkDone with
          | true =>
            rw [if_pos rfl, hended hdone, filter_nil, append_nil]
            exact pageBuilt_done hcollect.bounded
          | false =>
            rw [if_neg Bool.false_ne_true, nil_append]
            have hbounded : page.length ≤ limit := hcollect.bounded
            have hshrinks := hgather.shrinks
            have hpositive := length_pos_iff.mpr hne
            change PageBuilt mode author limit
              (page ++ toShow mode author ⟨gathered.pending, gathered.walk⟩ gathered.gate) _
            refine ih hbounded (fun hauthor => ?_) (fun _ => hstarted) ?_
            · rw [hfiltered hauthor]
              exact zero_le _
            · dsimp only
              rw [length_nil] at hshrinks
              omega

end

theorem logPageFromPagedWalkState_built (hparked : Parked author state.pending)
    (hgate : state.pending ≠ [] → gate.started) :
    PageBuilt mode author limit (toShow mode author state gate)
      (logPageFromPagedWalkState mode author limit state gate) := by
  have hbuilt : PageBuilt mode author limit ([] ++ toShow mode author state gate)
      (logPageFromPagedWalkState mode author limit state gate) :=
    logPageLoop_built (zero_le _) hparked hgate (lt_succ_self _)
  exact hbuilt

end GitComet.LogPages
