import GitComet.Merge.PlanRun

namespace GitComet.Conflict
open Merge

inductive AutosolveRule where
  | identicalSides | onlyOursChanged | onlyTheirsChanged | whitespaceOnly | regexEquivalentSides
  | regexOnlyTheirsChanged | regexOnlyOursChanged | subchunkFullyMerged | historyMerged
  deriving DecidableEq

inductive AutosolveConfidence where
  | high | medium | low
  deriving DecidableEq

inductive ConflictRegionResolution where
  | unresolved
  | pickBase
  | pickOurs
  | pickTheirs
  | pickBoth
  | sources (selection : OrderedSelection)
  | manualEdit (content : List Char)
  | autoResolved (rule : AutosolveRule) (confidence : AutosolveConfidence) (content : List Char)
  deriving DecidableEq

end GitComet.Conflict

namespace GitComet.Conflict
open Merge

structure ConflictRegion where
  base : Option (List Char)
  ours : List Char
  theirs : List Char
  resolution : ConflictRegionResolution
  deriving DecidableEq

structure ConflictSession where
  regions : List ConflictRegion
  mergePlan : Option MergePlan
  regionPlanBlocks : List ℕ

def orderedSelectionForResolution (hasBase : Bool) :
    ConflictRegionResolution → Option OrderedSelection
  | .unresolved => some .new
  | .pickBase => if hasBase then some (.fromSource .a) else none
  | .pickOurs => some (.fromSource (if hasBase then .b else .a))
  | .pickTheirs => some (.fromSource (if hasBase then .c else .b))
  | .pickBoth => some (.fromSources (if hasBase then [.b, .c] else [.a, .b]))
  | .sources selection => some selection
  | .manualEdit _ => none
  | .autoResolved _ _ _ => none

def resolutionContent : ConflictRegionResolution → Option (List Char)
  | .manualEdit content => some content
  | .autoResolved _ _ content => some content
  | _ => none

def syncRegion (plan : MergePlan) (index : ℕ) (resolution : ConflictRegionResolution) :
    MergePlan × Bool :=
  match resolutionContent resolution with
  | some content =>
    if (plan.blocks[index]?).any fun block => decide (block.manualContent = some content) then
      (plan, false)
    else plan.setManualContentDeferred index content
  | none =>
    match orderedSelectionForResolution plan.hasBase resolution with
    | some selection => plan.replaceSelectionDeferred index selection
    | none => (plan, false)

def syncRegions (plan : MergePlan) : List (ℕ × ConflictRegion) → MergePlan × Bool
  | [] => (plan, false)
  | (index, region) :: pairs =>
    let first := syncRegion plan index region.resolution
    let rest := syncRegions first.1 pairs
    (rest.1, first.2 || rest.2)

def ConflictSession.syncMergePlanFromRegions (session : ConflictSession) : ConflictSession :=
  match session.mergePlan with
  | none => session
  | some plan =>
    let synced := syncRegions plan (session.regionPlanBlocks.zip session.regions)
    { session with
      mergePlan := some (if synced.2 then synced.1.refreshUnresolvedBlocks else synced.1) }

def Carries (plan : MergePlan) (resolution : ConflictRegionResolution) (block : MergeBlock) :
    Prop :=
  match resolutionContent resolution with
  | some content => block.manualContent = some content
  | none => block.manualContent = none ∧
    orderedSelectionForResolution plan.hasBase resolution = some block.selection

def Selectable (plan : MergePlan) (resolution : ConflictRegionResolution) : Prop :=
  resolutionContent resolution = none → ∃ selection,
    orderedSelectionForResolution plan.hasBase resolution = some selection ∧
      ∀ source ∈ selection.sources, (plan.sourceText source).isSome = true

section
variable {plan : MergePlan} {resolution : ConflictRegionResolution}

theorem syncRegion_cases (plan : MergePlan) (index : ℕ) (resolution : ConflictRegionResolution) :
    (syncRegion plan index resolution = (plan, false) ∧
      ∀ block, plan.blocks[index]? = some block → Selectable plan resolution →
        Carries plan resolution block) ∨
    ∃ old block, plan.blocks[index]? = some old ∧
      syncRegion plan index resolution =
        ({ plan with blocks := plan.blocks.set index block }, true) ∧
      Carries plan resolution block := by
  rw [syncRegion]
  cases hcontent : resolutionContent resolution with
  | some content =>
    dsimp only
    split
    · rename_i hin
      refine .inl ⟨rfl, fun block hblock _ => ?_⟩
      rw [hblock, Option.any_some, decide_eq_true_iff] at hin
      rw [Carries, hcontent]
      exact hin
    · rw [MergePlan.setManualContentDeferred]
      split
      · rename_i hnone
        refine .inl ⟨rfl, fun block hblock _ => ?_⟩
        rw [hnone] at hblock
        cases hblock
      · rename_i old hold
        refine .inr ⟨old, old.setManualContent content, hold, rfl, ?_⟩
        rw [Carries, hcontent]
        rfl
  | none =>
    dsimp only
    cases hselection : orderedSelectionForResolution plan.hasBase resolution with
    | none =>
      refine .inl ⟨rfl, fun block _ hselectable => ?_⟩
      obtain ⟨selection, hsome, -⟩ := hselectable hcontent
      rw [hselection] at hsome
      cases hsome
    | some selection =>
      dsimp only
      rw [MergePlan.replaceSelectionDeferred]
      split
      · rename_i hmissing
        refine .inl ⟨rfl, fun block _ hselectable => ?_⟩
        obtain ⟨selection', hsome, hpresent⟩ := hselectable hcontent
        rw [hselection] at hsome
        cases hsome
        obtain ⟨source, hsource, hnone⟩ := List.any_eq_true.mp hmissing
        have htext := hpresent source hsource
        rw [Option.isNone_iff_eq_none.mp hnone] at htext
        cases htext
      · split
        · rename_i hnone
          refine .inl ⟨rfl, fun block hblock _ => ?_⟩
          rw [hnone] at hblock
          cases hblock
        · rename_i old hold
          refine .inr ⟨old, old.replaceSelection selection, hold, rfl, ?_⟩
          rw [Carries, hcontent]
          exact ⟨rfl, hselection⟩

theorem carries_of_sources {plan' : MergePlan} (h : plan'.base = plan.base) {block : MergeBlock} :
    Carries plan' resolution block ↔ Carries plan resolution block := by
  rw [Carries, Carries, MergePlan.hasBase, MergePlan.hasBase, h]

theorem selectable_of_sources {plan' : MergePlan} (h : SameSources plan plan') :
    Selectable plan' resolution ↔ Selectable plan resolution := by
  simp only [Selectable, MergePlan.hasBase, h.base, h.sourceText]

structure Synced (plan plan' : MergePlan) (pairs : List (ℕ × ConflictRegion)) (touched : Bool) :
    Prop where
  sources : SameSources plan plan'
  unresolved : plan'.unresolvedBlocks = plan.unresolvedBlocks
  untouched : touched = false → plan' = plan
  length : plan'.blocks.length = plan.blocks.length
  others : ∀ index, index ∉ pairs.map Prod.fst → plan'.blocks[index]? = plan.blocks[index]?
  carries : ∀ index region block, (index, region) ∈ pairs → plan'.blocks[index]? = some block →
    Selectable plan region.resolution → Carries plan region.resolution block

theorem syncRegions_synced (pairs : List (ℕ × ConflictRegion)) : ∀ plan : MergePlan,
    (pairs.map Prod.fst).Nodup →
      Synced plan (syncRegions plan pairs).1 pairs (syncRegions plan pairs).2 := by
  induction pairs with
  | nil =>
    intro plan _
    exact ⟨⟨rfl, rfl, rfl, rfl⟩, rfl, fun _ => rfl, rfl, fun _ _ => rfl,
      fun _ _ _ h => absurd h (List.not_mem_nil)⟩
  | cons pair pairs ih =>
    intro plan hnodup
    obtain ⟨index, region⟩ := pair
    rw [List.map_cons, List.nodup_cons] at hnodup
    obtain ⟨hfresh, hnodup⟩ := hnodup
    rw [syncRegions]
    dsimp only
    rcases syncRegion_cases plan index region.resolution with
      ⟨hstep, hcarries⟩ | ⟨old, block, hold, hstep, hcarries⟩
    · rw [hstep]
      have hrest := ih plan hnodup
      refine ⟨hrest.sources, hrest.unresolved, fun h => hrest.untouched h, hrest.length, ?_, ?_⟩
      · intro other hother
        exact hrest.others other fun h => hother (List.mem_cons_of_mem _ h)
      · intro other region' block hmem hblock hselectable
        rcases List.mem_cons.mp hmem with heq | hmem
        · obtain ⟨rfl, rfl⟩ := Prod.mk.inj heq
          rw [hrest.others other hfresh] at hblock
          exact hcarries block hblock hselectable
        · exact hrest.carries other region' block hmem hblock hselectable
    · rw [hstep]
      have hrest := ih { plan with blocks := plan.blocks.set index block } hnodup
      have hsame : SameSources plan { plan with blocks := plan.blocks.set index block } :=
        ⟨rfl, rfl, rfl, rfl⟩
      refine ⟨⟨hrest.sources.base, hrest.sources.ours, hrest.sources.theirs, hrest.sources.rows⟩,
        hrest.unresolved, fun h => ?_, ?_, ?_, ?_⟩
      · cases h
      · rw [hrest.length, List.length_set]
      · intro other hother
        rw [hrest.others other fun h => hother (List.mem_cons_of_mem _ h)]
        have hne : index ≠ other := fun heq => hother (heq ▸ List.mem_cons_self)
        exact List.getElem?_set_ne hne
      · intro other region' block' hmem hblock hselectable
        rcases List.mem_cons.mp hmem with heq | hmem
        · obtain ⟨rfl, rfl⟩ := Prod.mk.inj heq
          have hlt := (List.getElem?_eq_some_iff.mp hold).1
          rw [hrest.others other hfresh, List.getElem?_set_self hlt] at hblock
          rw [← Option.some.inj hblock]
          exact hcarries
        · exact (carries_of_sources rfl).mp (hrest.carries other region' block' hmem hblock
            ((selectable_of_sources hsame).mpr hselectable))

end

section

def UnresolvedExact (plan : MergePlan) : Prop :=
  plan.unresolvedBlocks = Merge.unresolvedBlocks plan.blocks

theorem unresolvedExact_refresh (plan : MergePlan) : UnresolvedExact plan.refreshUnresolvedBlocks :=
  rfl

theorem UnresolvedExact.mem_iff {plan : MergePlan} (h : UnresolvedExact plan) {index : ℕ} :
    index ∈ plan.unresolvedBlocks ↔
      ∃ block, plan.blocks[index]? = some block ∧ block.isResolved = false := by
  rw [h]
  exact mem_unresolvedBlocks

end

end GitComet.Conflict
