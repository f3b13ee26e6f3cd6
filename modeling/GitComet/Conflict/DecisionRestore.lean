import GitComet.Conflict.PlanSync

namespace GitComet.Conflict
open Merge List Option

def mappedDecisions (session : ConflictSession) (plan : MergePlan) :
    List (UInt64 × ConflictRegionResolution) :=
  (session.regionPlanBlocks.zip session.regions).filterMap fun pair =>
    (plan.blocks[pair.1]?).map fun block => (block.id.fingerprint, pair.2.resolution)

def mappedFingerprints (session : ConflictSession) (plan : MergePlan) : List UInt64 :=
  session.regionPlanBlocks.filterMap fun index =>
    (plan.blocks[index]?).map fun block => block.id.fingerprint

def assignResolutions : List ConflictRegion → List ConflictRegionResolution → List ConflictRegion
  | region :: regions, resolution :: resolutions =>
    { region with resolution := resolution } :: assignResolutions regions resolutions
  | regions, _ => regions

def uniqueResolution (previous : List (UInt64 × ConflictRegionResolution)) (current : List UInt64)
    (fingerprint : UInt64) : ConflictRegionResolution :=
  let unique := previous.filter fun entry =>
    decide ((previous.map Prod.fst).count entry.1 = 1)
  match unique.find? fun entry => decide (entry.1 = fingerprint) with
  | some entry => if current.count fingerprint = 1 then entry.2 else .unresolved
  | none => .unresolved

def ConflictSession.restorePlanDecisionsFrom (session previous : ConflictSession) :
    ConflictSession :=
  match previous.mergePlan, session.mergePlan with
  | some previousPlan, some plan =>
    let plan := plan.restoreDecisionsFrom previousPlan
    let previousMapped := mappedDecisions previous previousPlan
    let currentFingerprints := mappedFingerprints session plan
    let resolutions :=
      if previousMapped.length = session.regions.length ∧
          currentFingerprints.length = session.regions.length ∧
          previousMapped.map Prod.fst = currentFingerprints then previousMapped.map Prod.snd
      else currentFingerprints.map (uniqueResolution previousMapped currentFingerprints)
    ConflictSession.syncMergePlanFromRegions
      { session with
        mergePlan := some plan
        regions := assignResolutions session.regions resolutions }
  | _, _ => session

section
variable {blocks previous : List MergeBlock}

def fingerprints (blocks : List MergeBlock) : List UInt64 :=
  blocks.map fun block => block.id.fingerprint

theorem sameSequence_iff (blocks : List MergeBlock) : ∀ previous : List MergeBlock,
    sameSequence blocks previous ↔ fingerprints blocks = fingerprints previous := by
  induction blocks with
  | nil =>
    intro previous
    cases previous with
    | nil => exact iff_of_true rfl rfl
    | cons old previous => exact iff_of_false Bool.false_ne_true (cons_ne_nil _ _).symm
  | cons block blocks ih =>
    intro previous
    cases previous with
    | nil => exact iff_of_false Bool.false_ne_true (cons_ne_nil _ _)
    | cons old previous =>
      have hrest := ih previous
      simp only [sameSequence, Bool.and_eq_true, decide_eq_true_eq] at hrest
      simp only [sameSequence, fingerprints, map_cons, cons.injEq, length_cons,
        zip_cons_cons, all_cons, Bool.and_eq_true, decide_eq_true_eq] at hrest ⊢
      rw [← hrest, Nat.succ_inj, ← and_assoc, ← and_assoc, and_comm (a := blocks.length = _)]

theorem fingerprintCount_eq (blocks : List MergeBlock) (fingerprint : UInt64) :
    fingerprintCount blocks fingerprint = (fingerprints blocks).count fingerprint := by
  rw [fingerprintCount, fingerprints, count, countP_map]
  rfl

def Source (blocks previous : List MergeBlock) (index : ℕ) (block old : MergeBlock) : Prop :=
  if fingerprints blocks = fingerprints previous then previous[index]? = some old
  else (fingerprints blocks).count block.id.fingerprint = 1 ∧
    (fingerprints previous).count block.id.fingerprint = 1 ∧
    old ∈ previous ∧ old.id.fingerprint = block.id.fingerprint

structure SourceOnly (blocks previous restored : List MergeBlock) : Prop where
  length : restored.length = blocks.length
  decision : ∀ index block, blocks[index]? = some block → ∃ block', restored[index]? = some block' ∧
    ((∃ old, Source blocks previous index block old ∧ block' = block.restore old) ∨
      (∀ old, ¬Source blocks previous index block old) ∧ block' = block)

theorem restoreBlocks_sourceOnly (blocks previous : List MergeBlock) :
    SourceOnly blocks previous (restoreBlocks blocks previous) := by
  by_cases hsame : sameSequence blocks previous
  · have hfingerprints := (sameSequence_iff blocks previous).mp hsame
    have hlength := sameSequence_length hsame
    rw [restoreBlocks, if_pos hsame]
    refine ⟨?_, fun index block hblock => ?_⟩
    · rw [length_zipWith, hlength, Nat.min_self]
    · have hlt := (List.getElem?_eq_some_iff.mp hblock).1
      have hold := getElem?_eq_getElem (hlength ▸ hlt)
      refine ⟨block.restore previous[index], ?_, .inl ⟨previous[index], ?_, rfl⟩⟩
      · exact getElem?_zipWith_eq_some.mpr ⟨_, _, hblock, hold, rfl⟩
      · rw [Source, if_pos hfingerprints]
        exact hold
  · have hfingerprints := fun h => hsame ((sameSequence_iff blocks previous).mpr h)
    rw [restoreBlocks, if_neg hsame]
    refine ⟨length_map .., fun index block hblock => ?_⟩
    refine ⟨restoreUnique blocks previous block, ?_, ?_⟩
    · rw [getElem?_map, hblock, map_some]
    · by_cases hsource : ∃ old, Source blocks previous index block old
      · obtain ⟨old, hold⟩ := hsource
        refine .inl ⟨old, hold, ?_⟩
        rw [Source, if_neg hfingerprints] at hold
        obtain ⟨hone, hother, hmem, heq⟩ := hold
        rw [← fingerprintCount_eq] at hone hother
        exact restoreUnique_exact hmem heq hone hother
      · refine .inr ⟨fun old hold => hsource ⟨old, hold⟩, ?_⟩
        rcases restoreUnique_cases blocks previous block with
          h | ⟨found, hmem, -, heq, hone, hother⟩
        · exact h
        · rw [fingerprintCount_eq] at hone hother
          refine absurd ⟨found, ?_⟩ hsource
          rw [Source, if_neg hfingerprints]
          exact ⟨hone, hother, hmem, heq⟩

end

structure ConflictSession.Rebuilt (session : ConflictSession) (plan : MergePlan) : Prop where
  mergePlan : session.mergePlan = some plan
  unresolved : UnresolvedExact plan
  mapped : session.regionPlanBlocks = plan.unresolvedBlocks

variable {session : ConflictSession} {plan : MergePlan}

theorem ConflictSession.Rebuilt.nodup
    (h : session.Rebuilt plan) : session.regionPlanBlocks.Nodup := by
  rw [h.mapped, h.unresolved]
  exact (unresolvedBlocks_sorted plan.blocks).imp fun hlt => Nat.ne_of_lt hlt

structure RegionsCarry (session : ConflictSession) (plan : MergePlan) : Prop where
  mergePlan : session.mergePlan = some plan
  unresolved : ∀ index, index ∈ plan.unresolvedBlocks ↔
    ∃ block, plan.blocks[index]? = some block ∧ block.isResolved = false
  carries : ∀ (i index : ℕ) (region : ConflictRegion) (block : MergeBlock),
    session.regions[i]? = some region → session.regionPlanBlocks[i]? = some index →
    plan.blocks[index]? = some block → Selectable plan region.resolution →
    Carries plan region.resolution block

theorem zip_sublist {α β : Type*} (xs : List α) : ∀ ys : List β,
    ((xs.zip ys).map Prod.fst).Sublist xs := by
  induction xs with
  | nil => exact fun _ => nil_sublist _
  | cons x xs ih =>
    intro ys
    cases ys with
    | nil => exact nil_sublist _
    | cons y ys => exact (ih ys).cons_cons x

theorem syncMergePlanFromRegions_carries (hplan : session.mergePlan = some plan)
    (hexact : UnresolvedExact plan) (hnodup : session.regionPlanBlocks.Nodup) :
    ∃ final, RegionsCarry session.syncMergePlanFromRegions final := by
  have hsynced := syncRegions_synced (session.regionPlanBlocks.zip session.regions) plan
    (hnodup.sublist (zip_sublist _ _))
  rw [ConflictSession.syncMergePlanFromRegions, hplan]
  dsimp only
  generalize syncRegions plan (session.regionPlanBlocks.zip session.regions) = synced at hsynced ⊢
  obtain ⟨synced, touched⟩ := synced
  dsimp only at hsynced ⊢
  have hcarries : ∀ (i index : ℕ) (region : ConflictRegion) (block : MergeBlock),
      session.regions[i]? = some region → session.regionPlanBlocks[i]? = some index →
      synced.blocks[index]? = some block → Selectable synced region.resolution →
      Carries synced region.resolution block := by
    intro i index region block hregion hindex hblock hselectable
    refine (carries_of_sources hsynced.sources.base).mpr
      (hsynced.carries index region block ?_ hblock
        ((selectable_of_sources hsynced.sources).mp hselectable))
    exact mem_of_getElem? (getElem?_zip_eq_some.mpr ⟨hindex, hregion⟩)
  cases touched with
  | false =>
    have hplan' := hsynced.untouched rfl
    refine ⟨synced, rfl, fun index => ?_, hcarries⟩
    rw [hplan']
    exact hexact.mem_iff
  | true =>
    refine ⟨synced.refreshUnresolvedBlocks, rfl, fun index => ?_, ?_⟩
    · exact (unresolvedExact_refresh synced).mem_iff
    · intro i index region block hregion hindex hblock hselectable
      exact hcarries i index region block hregion hindex hblock hselectable

theorem restorePlanDecisionsFrom_carries {previous : ConflictSession} {previousPlan : MergePlan}
    (hsession : session.Rebuilt plan) (hprevious : previous.mergePlan = some previousPlan) :
    ∃ final, RegionsCarry (session.restorePlanDecisionsFrom previous) final := by
  rw [ConflictSession.restorePlanDecisionsFrom, hprevious, hsession.mergePlan]
  exact syncMergePlanFromRegions_carries rfl (unresolvedExact_refresh _) hsession.nodup

theorem decisions_are_restored_to_the_same_blocks (plan previousPlan : MergePlan) :
    SourceOnly plan.blocks previousPlan.blocks (plan.restoreDecisionsFrom previousPlan).blocks ∧
    (∀ index, index ∈ (plan.restoreDecisionsFrom previousPlan).unresolvedBlocks ↔
      ∃ block, (plan.restoreDecisionsFrom previousPlan).blocks[index]? = some block ∧
        block.isResolved = false) ∧ ∀ session previous : ConflictSession, session.Rebuilt plan →
      previous.mergePlan = some previousPlan →
      ∃ final, RegionsCarry (session.restorePlanDecisionsFrom previous) final :=
  ⟨restoreBlocks_sourceOnly _ _, fun _ => (unresolvedExact_refresh _).mem_iff,
    fun _ _ hsession hprevious => restorePlanDecisionsFrom_carries hsession hprevious⟩

section

def markedOurs : List Char := "a\n||||||| o\nx\n".toList

def twoInputSession (resolution : ConflictRegionResolution) (plan : MergePlan) :
    ConflictSession where
  regions := [⟨some "x\n".toList, "a\n".toList, "b\n".toList, resolution⟩]
  mergePlan := some plan
  regionPlanBlocks := plan.unresolvedBlocks

variable {base : Option (List Char)} {ours theirs : List Char}

theorem built_unresolvedExact {options : MergeOptions} {alignments : ManualAlignmentList}
    (h : buildMergePlanWithAlignments base ours theirs options alignments = some plan) :
    UnresolvedExact plan := by
  simp only [buildMergePlanWithAlignments, bind_eq_bind, bind_eq_some_iff,
    some.injEq] at h
  obtain ⟨rows, -, blocks, -, rfl⟩ := h
  rfl

theorem twoInput_rebuilt (h : buildMergePlanWithAlignments base ours theirs .default [] = some plan)
    (resolution : ConflictRegionResolution) : (twoInputSession resolution plan).Rebuilt plan :=
  ⟨rfl, built_unresolvedExact h, rfl⟩

theorem two_input_decision_is_restored : ∃ plan final,
    buildMergePlanWithAlignments none markedOurs "b\n".toList .default [] = some plan ∧
      RegionsCarry ((twoInputSession .unresolved plan).restorePlanDecisionsFrom
        (twoInputSession .pickTheirs plan)) final := by
  have hsome : (buildMergePlanWithAlignments none markedOurs "b\n".toList .default []).isSome =
      true := by decide +kernel
  obtain ⟨plan, hplan⟩ := isSome_iff_exists.mp hsome
  obtain ⟨-, -, hsessions⟩ := decisions_are_restored_to_the_same_blocks plan plan
  obtain ⟨final, hfinal⟩ := hsessions _ (twoInputSession .pickTheirs plan)
    (twoInput_rebuilt hplan .unresolved) rfl
  exact ⟨plan, final, hplan, hfinal⟩

theorem base_pick_of_a_two_input_plan_is_not_carried : ∃ plan final region block,
    buildMergePlanWithAlignments none markedOurs "b\n".toList .default [] = some plan ∧
      (twoInputSession .unresolved plan).Rebuilt plan ∧ plan.unresolvedBlocks = [0] ∧
      ((twoInputSession .unresolved plan).restorePlanDecisionsFrom
        (twoInputSession .pickBase plan)).mergePlan = some final ∧
      ((twoInputSession .unresolved plan).restorePlanDecisionsFrom
        (twoInputSession .pickBase plan)).regions[0]? = some region ∧
      final.blocks[0]? = some block ∧ ¬Carries final region.resolution block := by
  have hsome : ((buildMergePlanWithAlignments none markedOurs "b\n".toList .default []).bind
      fun plan =>
        let restored := (twoInputSession .unresolved plan).restorePlanDecisionsFrom
          (twoInputSession .pickBase plan)
        restored.mergePlan.bind fun final => restored.regions[0]?.map fun region =>
          (plan.unresolvedBlocks, final.base, final.blocks.length, region.resolution)) =
      some ([0], none, 1, .pickBase) := by decide +kernel
  obtain ⟨plan, hplan, hsome⟩ := bind_eq_some_iff.mp hsome
  obtain ⟨final, hfinal, hsome⟩ := bind_eq_some_iff.mp hsome
  obtain ⟨region, hregion, hsome⟩ := map_eq_some_iff.mp hsome
  obtain ⟨hunresolved, hbase, hlength, hresolution⟩ := by simpa only [Prod.mk.injEq] using hsome
  have hblock := getElem?_eq_getElem (l := final.blocks) (i := 0) (by omega)
  refine ⟨plan, final, region, _, hplan, twoInput_rebuilt hplan .unresolved, hunresolved, hfinal,
    hregion, hblock, fun hcarries => ?_⟩
  rw [hresolution, Carries, MergePlan.hasBase, hbase] at hcarries
  cases hcarries.2

end

end GitComet.Conflict
