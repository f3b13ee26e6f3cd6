import GitComet.Merge.PlanEditInvariant

namespace GitComet.Merge
open Slice Text List Option Nat

def CarriedOver (blocks previous : List MergeBlock) (block : MergeBlock) : Prop :=
  block ∈ previous ∧ (sameSequence blocks previous = true ∨
    fingerprintCount blocks block.id.fingerprint = 1 ∧
      fingerprintCount previous block.id.fingerprint = 1)

def RestoreSafe (plan previous : MergePlan) : Prop :=
  ∀ block, CarriedOver plan.blocks previous.blocks block → SoundDecision plan block

variable {block : MergeBlock}

section
variable {blocks previous : List MergeBlock}

theorem sameSequence_length (h : sameSequence blocks previous) :
    blocks.length = previous.length := by
  simp only [sameSequence, Bool.and_eq_true, decide_eq_true_eq] at h
  exact h.1

theorem zipWith_map {α : Type*} (f : MergeBlock → α)
    (hf : ∀ block other, f (MergeBlock.restore block other) = f block) :
    ∀ {blocks previous : List MergeBlock}, blocks.length = previous.length →
      (blocks.zipWith MergeBlock.restore previous).map f = blocks.map f := by
  intro blocks
  induction blocks with
  | nil => exact fun _ => by simp
  | cons block blocks ih =>
    intro previous h
    cases previous with
    | nil => simp at h
    | cons other previous =>
      rw [zipWith_cons_cons, map_cons, map_cons, hf,
        ih (Nat.succ.inj (by simpa using h))]

variable (blocks previous) in
theorem restoreUnique_cases (block : MergeBlock) :
    restoreUnique blocks previous block = block ∨ ∃ found ∈ previous,
      restoreUnique blocks previous block = block.restore found ∧
        found.id.fingerprint = block.id.fingerprint ∧
        fingerprintCount blocks block.id.fingerprint = 1 ∧
        fingerprintCount previous block.id.fingerprint = 1 := by
  unfold restoreUnique
  split
  · exact Or.inl rfl
  rename_i hone
  rw [not_not] at hone
  split
  · rename_i found hfound
    have hsame : found.id.fingerprint = block.id.fingerprint := by
      simpa using find?_some hfound
    have hmem := mem_filter.mp (mem_of_find?_eq_some hfound)
    rw [decide_eq_true_iff, hsame] at hmem
    exact Or.inr ⟨found, hmem.1, rfl, hsame, hone, hmem.2⟩
  · exact Or.inl rfl

theorem restoreBlocks_map {α : Type*} (f : MergeBlock → α)
    (hf : ∀ block other, f (MergeBlock.restore block other) = f block) :
    (restoreBlocks blocks previous).map f = blocks.map f := by
  unfold restoreBlocks
  split
  · rename_i h
    exact zipWith_map f hf (sameSequence_length h)
  · rw [List.map_map]
    refine map_congr_left fun block _ => ?_
    rcases restoreUnique_cases blocks previous block with
      h | ⟨found, -, h, -⟩
    · simp only [Function.comp_apply, h]
    · simp only [Function.comp_apply, h, hf]

theorem mem_restoreBlocks (h : block ∈ restoreBlocks blocks previous) :
    block ∈ blocks ∨ ∃ old found, CarriedOver blocks previous found ∧
      block = MergeBlock.restore old found := by
  unfold restoreBlocks at h
  split at h
  · rename_i hsame
    obtain ⟨index, hindex⟩ := mem_iff_getElem?.mp h
    rw [getElem?_zipWith_eq_some] at hindex
    obtain ⟨old, found, -, hfound, rfl⟩ := hindex
    exact Or.inr ⟨old, found, ⟨mem_of_getElem? hfound, Or.inl hsame⟩, rfl⟩
  · obtain ⟨old, hold, rfl⟩ := mem_map.mp h
    rcases restoreUnique_cases blocks previous old with
      heq | ⟨found, hmem, heq, hsame, hone, hother⟩
    · exact Or.inl (heq.symm ▸ hold)
    · exact Or.inr ⟨old, found, ⟨hmem, Or.inr ⟨hsame ▸ hone, hsame ▸ hother⟩⟩, heq⟩

theorem countP_one_unique {α : Type*} {p : α → Bool} {xs : List α} (h : xs.countP p = 1)
    {x y : α} (hx : x ∈ xs) (hpx : p x) (hy : y ∈ xs) (hpy : p y) : x = y := by
  rw [countP_eq_length_filter, length_eq_one_iff] at h
  obtain ⟨only, honly⟩ := h
  have hmem : ∀ {z}, z ∈ xs → p z → z = only := fun hz hpz => by
    have := mem_filter.mpr ⟨hz, hpz⟩
    rw [honly] at this
    exact mem_singleton.mp this
  rw [hmem hx hpx, hmem hy hpy]

theorem restoreUnique_exact {found : MergeBlock} (hmem : found ∈ previous)
    (hsame : found.id.fingerprint = block.id.fingerprint)
    (hone : fingerprintCount blocks block.id.fingerprint = 1)
    (hother : fingerprintCount previous block.id.fingerprint = 1) :
    restoreUnique blocks previous block = block.restore found := by
  rw [restoreUnique, if_neg (by rw [not_not]; exact hone), ← hsame]
  rw [← hsame] at hother
  have hin : found ∈ uniqueDecisions previous :=
    mem_filter.mpr ⟨hmem, decide_eq_true hother⟩
  have hfind : ((uniqueDecisions previous).find? fun other =>
      decide (other.id.fingerprint = found.id.fingerprint)).isSome :=
    find?_isSome.mpr ⟨found, hin, by simp⟩
  obtain ⟨other, hother'⟩ := isSome_iff_exists.mp hfind
  rw [hother']
  have hfingerprint : other.id.fingerprint = found.id.fingerprint := by
    simpa using find?_some hother'
  have hsome : other = found := countP_one_unique hother
    (mem_of_mem_filter (mem_of_find?_eq_some hother')) (decide_eq_true hfingerprint)
    hmem (by simp)
  rw [hsome]

theorem carried_restored {found : MergeBlock} (h : CarriedOver blocks previous found) :
    ∃ old, MergeBlock.restore old found ∈ restoreBlocks blocks previous := by
  obtain ⟨hmem, h⟩ := h
  unfold restoreBlocks
  by_cases hsame : sameSequence blocks previous
  · rw [if_pos hsame]
    obtain ⟨index, hlt, hfound⟩ := getElem_of_mem hmem
    have hlength := sameSequence_length hsame
    refine ⟨blocks[index], mem_iff_getElem?.mpr ⟨index, ?_⟩⟩
    rw [getElem?_zipWith_eq_some]
    exact ⟨_, found, getElem?_eq_getElem _, by rw [getElem?_eq_getElem hlt, hfound], rfl⟩
  · rw [if_neg hsame]
    obtain ⟨hone, hother⟩ := h.resolve_left hsame
    obtain ⟨old, hold, heq⟩ := countP_pos_iff.mp (lt_of_lt_of_eq one_pos hone.symm)
    rw [decide_eq_true_iff] at heq
    refine ⟨old, mem_map.mpr ⟨old, hold, ?_⟩⟩
    exact restoreUnique_exact hmem heq.symm (heq ▸ hone) (heq ▸ hother)

end

variable {plan : MergePlan}

theorem restore_invariant_iff {previous : MergePlan} (h : EditInvariant plan) :
    EditInvariant (plan.restoreDecisionsFrom previous) ↔ RestoreSafe plan previous := by
  constructor
  · intro hrestored found hfound
    obtain ⟨old, hmem⟩ := carried_restored hfound
    have hsound := hrestored.decisions _ hmem
    have hsame : SameSources (plan.restoreDecisionsFrom previous) plan := ⟨rfl, rfl, rfl, rfl⟩
    exact sound_of_decision (hsame.sound hsound) rfl rfl
  · intro hsafe
    refine decided_invariant h (restoreBlocks_map _ fun _ _ => rfl)
      (restoreBlocks_map _ fun _ _ => rfl) fun block hblock => ?_
    rcases mem_restoreBlocks hblock with hold | ⟨old, found, hcarried, rfl⟩
    · exact h.decisions block hold
    · exact sound_of_decision (hsafe found hcarried) rfl rfl

def OperationSafe (plan : MergePlan) : PlanOperation → Prop
  | .restoreDecisionsFrom previous => RestoreSafe plan previous
  | _ => True

def SafeRun : MergePlan → List PlanOperation → Prop
  | _, [] => True
  | plan, operation :: operations => OperationSafe plan operation ∧
    ∀ result, plan.perform operation = some result → SafeRun result.1 operations

theorem perform_step (h : EditInvariant plan) (hroom : plan.rows.length ≤ u32Max + 1)
    {o : PlanOperation} (hsafe : OperationSafe plan o) :
    ∃ result, plan.perform o = some result ∧ EditStep plan result.1 result.2 := by
  cases o with
  | toggleSource index source => exact ⟨_, rfl, toggleSource_step h index source⟩
  | replaceSelection index selection => exact ⟨_, rfl, replaceSelection_step h index selection⟩
  | setManualContent index content => exact ⟨_, rfl, setManualContent_step h index content⟩
  | splitBlockBySourceLineCounts index parts =>
    obtain ⟨result, hresult, hstep⟩ := splitBlock_step h hroom index parts
    exact ⟨_, by rw [MergePlan.perform, hresult]; rfl, hstep⟩
  | joinBlockRange first last =>
    obtain ⟨result, hresult, hstep⟩ := joinBlockRange_step h hroom first last
    exact ⟨_, by rw [MergePlan.perform, hresult]; rfl, hstep⟩
  | restoreDecisionsFrom previous =>
    exact ⟨_, rfl, (restore_invariant_iff h).mpr hsafe, ⟨rfl, rfl, rfl, rfl⟩, fun hfalse => by
      cases hfalse⟩

theorem run_invariant {operations : List PlanOperation} : ∀ {plan : MergePlan},
    EditInvariant plan → plan.rows.length ≤ u32Max + 1 → SafeRun plan operations →
      ∃ plan', plan.performAll operations = some plan' ∧ EditInvariant plan' ∧
        SameSources plan plan' := by
  induction operations with
  | nil => exact fun h _ _ => ⟨_, rfl, h, rfl, rfl, rfl, rfl⟩
  | cons operation operations ih =>
    intro plan h hroom hsafe
    obtain ⟨result, hresult, hstep⟩ := perform_step h hroom hsafe.1
    obtain ⟨plan', hrun, hinvariant, hsame⟩ := ih hstep.invariant
      (hstep.sources.rows ▸ hroom) (hsafe.2 result hresult)
    refine ⟨plan', ?_, hinvariant, hstep.sources.trans hsame⟩
    simp only [MergePlan.performAll, hresult, bind_eq_bind, bind_some, hrun]

theorem decision_present (plan : MergePlan) (row : AlignedRow) :
    ∀ source ∈ (classify plan.base.isSome row).selection.sources,
      (plan.sourceText source).isSome := by
  intro source hsource
  unfold MergePlan.sourceText
  cases hbase : plan.base with
  | some base => cases source <;> rfl
  | none =>
    rw [hbase] at hsource
    have hfirst : source = .a := by
      simp only [classify, isSome_none, Bool.false_eq_true, if_false] at hsource
      unfold classifyTwoInput at hsource
      split at hsource
      · split at hsource
        · exact mem_singleton.mp hsource
        · cases hsource
      · cases hsource
    rw [hfirst]
    rfl

theorem built_invariant {base : Option (List Char)} {ours theirs : List Char}
    {options : MergeOptions} {alignments : ManualAlignmentList}
    (h : buildMergePlanWithAlignments base ours theirs options alignments = some plan)
    (hroom : plan.rows.length ≤ u32Max + 1) : EditInvariant plan := by
  obtain ⟨rows, -, h⟩ := bind_eq_some_iff.mp h
  obtain ⟨blocks, hblocks, h⟩ := bind_eq_some_iff.mp h
  cases h
  obtain ⟨blocks', runs, hbuilt, rfl, hruns, hof⟩ := buildBlocks_spec
    (planTexts base ours theirs).sources base.isSome rows
  obtain rfl := some.inj (hblocks.symm.trans hbuilt)
  have htiles := hof.tiles hruns
  rw [zero_add] at htiles
  have hlength := tiles_length htiles
  rw [length_map, zero_add] at hlength
  refine ⟨htiles, ?_, rfl, fun block hblock => ⟨fun hmanual => ?_, ?_⟩⟩
  · exact (refreshIds_ids (finishBlocks_refresh hblocks) fun _ => by
      simp only at hroom
      omega).2
  · rw [hof.manual block hblock] at hmanual
    cases hmanual
  · obtain ⟨run, hselection⟩ := hof.selection block hblock
    rw [hselection]
    exact decision_present ⟨base, ours, theirs, _, _, _, _⟩ _

theorem appendPlanSources_exists
    (hlt : block.rows.start < block.rows.stop) (hle : block.rows.stop ≤ plan.rows.length) :
    ∀ sources, ∃ output, appendPlanSources plan block sources = some output := by
  intro sources
  induction sources with
  | nil => exact ⟨[], rfl⟩
  | cons source sources ih =>
    obtain ⟨rest, hrest⟩ := ih
    simp only [appendPlanSources, MergePlan.blockSourceLines,
      sliceOf_eq (le_of_lt hlt) hle, bind_eq_bind, bind_some, hrest]
    exact ⟨_, rfl⟩

theorem renderBlock_resolved (options : MergeOptions) (hlt : block.rows.start < block.rows.stop)
    (hle : block.rows.stop ≤ plan.rows.length) (hresolved : block.isResolved) :
    ∃ output, renderBlock plan options block = some ⟨output, 0⟩ := by
  unfold renderBlock
  cases hmanual : block.manualContent with
  | some manual => exact ⟨manual, rfl⟩
  | none =>
    have hselection : block.selection.isEmpty = false := by
      simpa [MergeBlock.isResolved, hmanual] using hresolved
    obtain ⟨output, houtput⟩ := appendPlanSources_exists hlt hle block.selection.sources
    simp only [strategySelection, hselection, Bool.false_eq_true, if_false, houtput,
      map_some]
    exact ⟨output, rfl⟩

theorem renderBlocks_resolved (options : MergeOptions) {blocks : List MergeBlock}
    (h : ∀ block ∈ blocks, block.rows.start < block.rows.stop ∧
      block.rows.stop ≤ plan.rows.length ∧ block.isResolved) :
    ∃ output, renderBlocks plan options blocks = some ⟨output, 0⟩ := by
  induction blocks with
  | nil => exact ⟨[], rfl⟩
  | cons block blocks ih =>
    obtain ⟨hlt, hle, hresolved⟩ := h block mem_cons_self
    obtain ⟨output, houtput⟩ := renderBlock_resolved options hlt hle hresolved
    obtain ⟨rest, hrest⟩ := ih fun b hb => h b (mem_cons_of_mem _ hb)
    simp only [renderBlocks, houtput, hrest, bind_eq_bind, bind_some]
    exact ⟨_, rfl⟩

theorem render_resolved (h : EditInvariant plan)
    (hnone : plan.unresolvedBlocks = []) (options : MergeOptions) :
    ∃ output, renderMergePlan plan options = some ⟨output, 0⟩ := by
  have hall : ∀ block ∈ plan.blocks, block.rows.start < block.rows.stop ∧
      block.rows.stop ≤ plan.rows.length ∧ block.isResolved := by
    intro block hblock
    obtain ⟨-, hlt, hle⟩ := tiles_mem h.tiles block.rows (mem_map_of_mem hblock)
    refine ⟨hlt, hle, ?_⟩
    obtain ⟨index, hindex⟩ := mem_iff_getElem?.mp hblock
    rw [h.unresolved] at hnone
    by_contra hopen
    have := mem_unresolvedBlocks.mpr ⟨block, hindex, Bool.eq_false_iff.mpr hopen⟩
    rw [hnone] at this
    cases this
  obtain ⟨output, houtput⟩ := renderBlocks_resolved options hall
  simp only [renderMergePlan, houtput, bind_eq_bind, bind_some]
  split
  · exact ⟨_, rfl⟩
  · exact ⟨_, rfl⟩

structure SoundPlan (plan : MergePlan) : Prop where
  tiles : Tiles (plan.blocks.map MergeBlock.rows) 0 plan.rows.length
  ids : (plan.blocks.map MergeBlock.id).Nodup
  unresolved : ∀ index, index ∈ plan.unresolvedBlocks ↔
    ∃ block, plan.blocks[index]? = some block ∧ block.isResolved = false
  ascending : plan.unresolvedBlocks.Pairwise (· < ·)
  exclusive : ∀ block ∈ plan.blocks, block.manualContent = none ∨ block.selection.sources = []
  selected : ∀ block ∈ plan.blocks, block.selection.sources.Nodup ∧
    ∀ source ∈ block.selection.sources, (plan.sourceText source).isSome = true
  unchanged : ∀ operation plan', plan.perform operation = some (plan', false) → plan' = plan
  renders : plan.unresolvedBlocks = [] → ∀ options, ∃ output,
    renderMergePlan plan options = some ⟨output, 0⟩

theorem failed_unchanged (h : EditInvariant plan)
    (hroom : plan.rows.length ≤ u32Max + 1) {operation : PlanOperation} {plan' : MergePlan}
    (hfailed : plan.perform operation = some (plan', false)) : plan' = plan := by
  have hsafe : OperationSafe plan operation := by
    cases operation with
    | restoreDecisionsFrom previous => simp [MergePlan.perform] at hfailed
    | _ => trivial
  obtain ⟨result, hresult, hstep⟩ := perform_step h hroom hsafe
  obtain rfl := some.inj (hresult.symm.trans hfailed)
  exact hstep.unchanged rfl

theorem soundPlan_of_invariant (h : EditInvariant plan)
    (hroom : plan.rows.length ≤ u32Max + 1) : SoundPlan plan where
  tiles := h.tiles
  ids := h.ids
  unresolved index := by rw [h.unresolved, mem_unresolvedBlocks]
  ascending := h.unresolved ▸ unresolvedBlocks_sorted plan.blocks
  exclusive block hblock := by
    cases hmanual : block.manualContent with
    | none => exact Or.inl rfl
    | some content =>
      have := (h.decisions block hblock).exclusive (by rw [hmanual]; rfl)
      exact Or.inr (List.isEmpty_iff.mp this)
  selected block hblock := ⟨block.selection.distinct, (h.decisions block hblock).present⟩
  unchanged _ _ := failed_unchanged h hroom
  renders := render_resolved h

theorem plan_edits_stay_sound {base : Option (List Char)} {ours theirs : List Char}
    {options : MergeOptions} {alignments : ManualAlignmentList} {plan : MergePlan}
    (hplan : buildMergePlanWithAlignments base ours theirs options alignments = some plan)
    (hroom : plan.rows.length ≤ 2 ^ 32) {operations : List PlanOperation}
    (hsafe : SafeRun plan operations) :
    ∃ plan', plan.performAll operations = some plan' ∧ SoundPlan plan' := by
  have hbuilt := built_invariant hplan hroom
  obtain ⟨plan', hrun, hinvariant, hsame⟩ := run_invariant hbuilt hroom hsafe
  exact ⟨plan', hrun, soundPlan_of_invariant hinvariant (hsame.rows ▸ hroom)⟩

theorem toggled_and_restored_plan_is_sound : ∃ plan plan',
    buildMergePlanWithAlignments (some "x\n".toList) "y\n".toList "z\n".toList .default [] =
        some plan ∧ plan.performAll [.toggleSource 0 .c, .restoreDecisionsFrom plan] = some plan' ∧
      SoundPlan plan' := by
  have hsome : (buildMergePlanWithAlignments (some "x\n".toList) "y\n".toList "z\n".toList
      .default []).map (fun plan => plan.rows.length) = some 1 := by decide +kernel
  obtain ⟨plan, hplan, hrows⟩ := map_eq_some_iff.mp hsome
  have hroom : plan.rows.length ≤ 2 ^ 32 := by omega
  have hbuilt := built_invariant hplan hroom
  have hsafe : SafeRun plan [.toggleSource 0 .c, .restoreDecisionsFrom plan] := by
    refine ⟨trivial, fun result hresult => ⟨fun block hblock => ?_, fun _ _ => trivial⟩⟩
    obtain ⟨stepped, hstepped, hstep⟩ := perform_step hbuilt hroom (o := .toggleSource 0 .c) trivial
    obtain rfl := some.inj (hstepped.symm.trans hresult)
    exact hstep.sources.sound (hbuilt.decisions block hblock.1)
  obtain ⟨plan', hrun, hsound⟩ := plan_edits_stay_sound hplan hroom hsafe
  exact ⟨plan, plan', hplan, hrun, hsound⟩

def remoteChosenPlan : Option MergePlan := do
  let plan ← buildMergePlanWithAlignments (some "x\n".toList) "y\nz\n".toList "x\n".toList
    .default []
  plan.performAll [.splitBlockBySourceLineCounts 0 [⟨1, 1, 1⟩, ⟨0, 1, 0⟩],
    .replaceSelection 1 (.fromSource .c)]

def joinedTwoInputPlan : Option MergePlan := do
  let plan ← buildMergePlanWithAlignments none [] "z\n".toList .default []
  plan.performAll [.joinBlockRange 0 0]

theorem restoring_selects_a_missing_source : ∃ previous plan plan',
    remoteChosenPlan = some previous ∧ joinedTwoInputPlan = some plan ∧
      plan.performAll [.restoreDecisionsFrom previous] = some plan' ∧ ¬ SoundPlan plan' := by
  have hsome : (remoteChosenPlan.bind fun previous => joinedTwoInputPlan.bind fun plan =>
      (plan.performAll [.restoreDecisionsFrom previous]).map fun plan' =>
        plan'.blocks.map fun block =>
          block.selection.sources.map fun source => (plan'.sourceText source).isSome) =
      some [[false]] := by decide +kernel
  obtain ⟨previous, hprevious, hsome⟩ := bind_eq_some_iff.mp hsome
  obtain ⟨plan, hplan, hsome⟩ := bind_eq_some_iff.mp hsome
  obtain ⟨plan', hplan', hmissing⟩ := map_eq_some_iff.mp hsome
  refine ⟨previous, plan, plan', hprevious, hplan, hplan', fun hsound => ?_⟩
  have hmem : [false] ∈ plan'.blocks.map fun block =>
      block.selection.sources.map fun source => (plan'.sourceText source).isSome := by
    rw [hmissing]
    exact mem_singleton_self _
  obtain ⟨block, hblock, hsources⟩ := mem_map.mp hmem
  have hfalse : false ∈ block.selection.sources.map fun source =>
      (plan'.sourceText source).isSome := by
    rw [hsources]
    exact mem_singleton_self _
  obtain ⟨source, hsource, hnone⟩ := mem_map.mp hfalse
  rw [(hsound.selected block hblock).2 source hsource] at hnone
  cases hnone

end GitComet.Merge
