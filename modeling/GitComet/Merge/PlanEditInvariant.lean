import GitComet.Merge.PlanEdit

namespace GitComet.Merge
open Slice Text List Nat Option

variable {start stop : ℕ}

theorem tiles_append {front back : List LineRange} {mid : ℕ}
    (hfront : Tiles front start mid) (hback : Tiles back mid stop) :
    Tiles (front ++ back) start stop := by
  induction hfront with
  | nil => exact hback
  | cons hlt _ ih => exact .cons hlt (ih hback)

theorem tiles_split {front : List LineRange} : ∀ {back : List LineRange} {start stop : ℕ},
    Tiles (front ++ back) start stop → ∃ mid, Tiles front start mid ∧ Tiles back mid stop := by
  induction front with
  | nil => exact fun h => ⟨_, .nil _, h⟩
  | cons range front ih =>
    intro back start stop h
    cases h with
    | cons hlt hrest =>
      obtain ⟨mid, hfront, hback⟩ := ih hrest
      exact ⟨mid, .cons hlt hfront, hback⟩

variable {ranges : List LineRange}

theorem tiles_length (h : Tiles ranges start stop) : start + ranges.length ≤ stop := by
  induction h with
  | nil => exact le_refl _
  | cons hlt _ ih =>
    rw [length_cons]
    omega

theorem tiles_head {range : LineRange}
    (h : Tiles (range :: ranges) start stop) : range.start = start ∧ range.start < range.stop := by
  cases h with
  | cons hlt _ => exact ⟨rfl, hlt⟩

theorem tiles_last {range : LineRange}
    (h : Tiles (ranges ++ [range]) start stop) : range.stop = stop := by
  obtain ⟨mid, -, hlast⟩ := tiles_split h
  cases hlast with
  | cons _ hnil =>
    cases hnil
    rfl

variable {first last : ℕ}

theorem tiles_cut (h : Tiles ranges start stop) (hle : first ≤ last) {o c : LineRange}
    (hfirst : ranges[first]? = some o) (hlast : ranges[last]? = some c) :
    Tiles (ranges.take first) start o.start ∧ o.start < c.stop ∧
      Tiles (ranges.drop (last + 1)) c.stop stop := by
  obtain ⟨hlastLt, hlast⟩ := List.getElem?_eq_some_iff.mp hlast
  obtain ⟨hfirstLt, hfirst⟩ := List.getElem?_eq_some_iff.mp hfirst
  rw [← take_append_drop (last + 1) ranges] at h
  obtain ⟨mid, hinit, htail⟩ := tiles_split h
  have hstop : c.stop = mid := by
    rw [take_succ_eq_append_getElem hlastLt, hlast] at hinit
    exact tiles_last hinit
  rw [← take_append_drop first (ranges.take (last + 1))] at hinit
  obtain ⟨cut, hfront, hmiddle⟩ := tiles_split hinit
  rw [take_take, min_eq_left (by omega)] at hfront
  have hdrop : (ranges.take (last + 1)).drop first =
      o :: (ranges.take (last + 1)).drop (first + 1) := by
    rw [drop_eq_getElem_cons (by rw [length_take]; omega), getElem_take, hfirst]
  rw [hdrop] at hmiddle
  obtain ⟨rfl, hpos⟩ := tiles_head hmiddle
  have hrest : o.stop ≤ mid := by
    cases hmiddle with
    | cons _ hrest => exact tiles_le hrest
  rw [hstop]
  exact ⟨hfront, by omega, htail⟩

theorem partEnd_le {rows : List AlignedRow} : ∀ {cursor stop : ℕ} {counts : LineCounts},
    partEnd rows cursor counts = some stop → cursor ≤ stop := by
  induction rows with
  | nil =>
    intro cursor stop counts h
    unfold partEnd at h
    split at h
    · exact le_of_eq (some.inj h)
    · cases h
  | cons row rows ih =>
    intro cursor stop counts h
    unfold partEnd at h
    split at h
    · exact le_of_eq (some.inj h)
    · obtain ⟨remaining, -, h⟩ := bind_eq_some_iff.mp h
      exact le_of_succ_le (ih h)

theorem partRanges_tiles {rows : List AlignedRow} {parts : List LineCounts} :
    ∀ {cursor stop : ℕ} {ranges : List LineRange},
      partRanges rows cursor parts = some (ranges, stop) → Tiles ranges cursor stop := by
  induction parts with
  | nil =>
    intro cursor stop ranges h
    obtain ⟨rfl, rfl⟩ := Prod.mk.inj (some.inj h)
    exact .nil _
  | cons counts parts ih =>
    intro cursor stop ranges h
    unfold partRanges at h
    split at h
    · cases h
    obtain ⟨mid, hmid, h⟩ := bind_eq_some_iff.mp h
    split at h
    · cases h
    rename_i hne
    obtain ⟨⟨rest, last⟩, hrest, h⟩ := bind_eq_some_iff.mp h
    obtain ⟨rfl, rfl⟩ := Prod.mk.inj (some.inj h)
    have := partEnd_le hmid
    exact .cons (by simp only; omega) (ih hrest)

section
variable {texts : Sources} {rows : List AlignedRow}

variable (texts) in
theorem refreshIds_exists {start : ℕ} {blocks : List MergeBlock}
    (h : Tiles (blocks.map MergeBlock.rows) start rows.length) :
    ∀ occurrences, ∃ refreshed, refreshIds texts rows blocks occurrences = some refreshed := by
  induction blocks generalizing start with
  | nil => exact fun _ => ⟨[], rfl⟩
  | cons block blocks ih =>
    intro occurrences
    obtain ⟨-, hlt, hle⟩ := tiles_mem h block.rows mem_cons_self
    cases h with
    | cons _ hrest =>
      obtain ⟨rest, hrest⟩ := ih hrest (countFingerprint (blockFingerprint texts
        (slice rows block.rows.start block.rows.stop) block.classification) occurrences)
      simp only [refreshIds, sliceOf_eq (le_of_lt hlt) hle, bind_eq_bind,
        bind_some, hrest]
      exact ⟨_, rfl⟩

theorem refreshIds_map {α : Type*} (f : MergeBlock → α)
    (hf : ∀ block id, f { block with id := id } = f block) {blocks : List MergeBlock} :
    ∀ {occurrences : UInt64 → ℕ} {refreshed : List MergeBlock},
      refreshIds texts rows blocks occurrences = some refreshed →
      refreshed.map f = blocks.map f := by
  induction blocks with
  | nil =>
    intro occurrences refreshed h
    cases h
    rfl
  | cons block blocks ih =>
    intro occurrences refreshed h
    obtain ⟨slice, -, h⟩ := bind_eq_some_iff.mp h
    obtain ⟨rest, hrest, h⟩ := bind_eq_some_iff.mp h
    cases h
    rw [map_cons, map_cons, hf, ih hrest]

theorem countFingerprint_room {occurrences : UInt64 → ℕ} {count : ℕ} {f : UInt64}
    (hroom : ∀ key, occurrences key + (count + 1) ≤ u32Max + 1) (key : UInt64) :
    countFingerprint f occurrences key + count ≤ u32Max + 1 ∧
      occurrences key ≤ countFingerprint f occurrences key := by
  have := hroom key
  unfold countFingerprint
  split
  · omega
  · omega

theorem refreshIds_ids {blocks : List MergeBlock} :
    ∀ {occurrences : UInt64 → ℕ} {refreshed : List MergeBlock},
      refreshIds texts rows blocks occurrences = some refreshed →
      (∀ key, occurrences key + blocks.length ≤ u32Max + 1) →
      (∀ block ∈ refreshed, occurrences block.id.fingerprint ≤ block.id.occurrence) ∧
        (refreshed.map (·.id)).Nodup := by
  induction blocks with
  | nil =>
    intro occurrences refreshed h _
    cases h
    exact ⟨by simp, nodup_nil⟩
  | cons block blocks ih =>
    intro occurrences refreshed h hroom
    obtain ⟨slice, -, h⟩ := bind_eq_some_iff.mp h
    obtain ⟨rest, hrest, h⟩ := bind_eq_some_iff.mp h
    cases h
    rw [length_cons] at hroom
    have hcount := countFingerprint_room
      (f := blockFingerprint texts slice block.classification) hroom
    obtain ⟨hlow, hnodup⟩ := ih hrest fun key => (hcount key).1
    refine ⟨fun found hfound => ?_, ?_⟩
    · rcases mem_cons.mp hfound with rfl | hfound
      · exact le_refl _
      · exact le_trans (hcount found.id.fingerprint).2 (hlow found hfound)
    · rw [map_cons, nodup_cons]
      refine ⟨fun hmem => ?_, hnodup⟩
      obtain ⟨found, hfound, hid⟩ := mem_map.mp hmem
      have hlater := hlow found hfound
      rw [hid] at hlater
      have hrestLength : 0 < blocks.length := by
        have := congrArg length (refreshIds_map (fun _ => ()) (fun _ _ => rfl) hrest)
        rw [length_map, length_map] at this
        rw [← this]
        exact length_pos_of_mem hfound
      have := hroom (blockFingerprint texts slice block.classification)
      simp only [countFingerprint, if_true] at hlater
      omega

theorem finishBlocks_refresh {threeWay : Bool} {raw : List (LineRange × RowDecision)} :
    ∀ {occurrences : UInt64 → ℕ} {blocks : List MergeBlock},
      finishBlocks texts threeWay rows raw occurrences = some blocks →
      refreshIds texts rows blocks occurrences = some blocks := by
  induction raw with
  | nil =>
    intro occurrences blocks h
    cases h
    rfl
  | cons entry raw ih =>
    intro occurrences blocks h
    obtain ⟨slice, hslice, h⟩ := bind_eq_some_iff.mp h
    obtain ⟨rest, hrest, h⟩ := bind_eq_some_iff.mp h
    cases h
    have hsame := ih hrest
    simp only [finishBlock] at hsame ⊢
    simp only [refreshIds, hslice, bind_eq_bind, bind_some, hsame]

end

structure SoundDecision (plan : MergePlan) (block : MergeBlock) : Prop where
  exclusive : block.manualContent.isSome = true → block.selection.isEmpty = true
  present : ∀ source ∈ block.selection.sources, (plan.sourceText source).isSome = true

structure EditInvariant (plan : MergePlan) : Prop where
  tiles : Tiles (plan.blocks.map MergeBlock.rows) 0 plan.rows.length
  ids : (plan.blocks.map MergeBlock.id).Nodup
  unresolved : plan.unresolvedBlocks = unresolvedBlocks plan.blocks
  decisions : ∀ block ∈ plan.blocks, SoundDecision plan block

structure SameSources (plan plan' : MergePlan) : Prop where
  base : plan'.base = plan.base
  ours : plan'.ours = plan.ours
  theirs : plan'.theirs = plan.theirs
  rows : plan'.rows = plan.rows

variable {plan' : MergePlan}

theorem SameSources.trans {plan plan'' : MergePlan} (h : SameSources plan plan')
    (h' : SameSources plan' plan'') : SameSources plan plan'' :=
  ⟨h'.base.trans h.base, h'.ours.trans h.ours, h'.theirs.trans h.theirs, h'.rows.trans h.rows⟩

theorem SameSources.sourceText {plan : MergePlan} (h : SameSources plan plan')
    (source : MergeSource) : plan'.sourceText source = plan.sourceText source := by
  simp only [MergePlan.sourceText, h.base, h.ours, h.theirs]

theorem SameSources.sound {plan : MergePlan} (h : SameSources plan plan')
    {block : MergeBlock} (hsound : SoundDecision plan block) : SoundDecision plan' block :=
  ⟨hsound.exclusive, fun source hsource => by
    rw [h.sourceText]
    exact hsound.present source hsource⟩

theorem sound_of_decision {plan : MergePlan} {block block' : MergeBlock}
    (h : SoundDecision plan block) (hselection : block'.selection = block.selection)
    (hmanual : block'.manualContent = block.manualContent) : SoundDecision plan block' :=
  ⟨by rw [hselection, hmanual]; exact h.exclusive, by rw [hselection]; exact h.present⟩

variable {index : ℕ} {old new : MergeBlock}

section
variable {plan : MergePlan} {blocks : List MergeBlock}

theorem decided_invariant (h : EditInvariant plan)
    (hrows : blocks.map MergeBlock.rows = plan.blocks.map MergeBlock.rows)
    (hids : blocks.map MergeBlock.id = plan.blocks.map MergeBlock.id)
    (hsound : ∀ block ∈ blocks, SoundDecision plan block) :
    EditInvariant (MergePlan.refreshUnresolvedBlocks { plan with blocks := blocks }) where
  tiles := hrows ▸ h.tiles
  ids := hids ▸ h.ids
  unresolved := rfl
  decisions block hblock :=
    have hsame : SameSources plan
        (MergePlan.refreshUnresolvedBlocks { plan with blocks := blocks }) := ⟨rfl, rfl, rfl, rfl⟩
    hsame.sound (hsound block hblock)

theorem set_map {α : Type*} (f : MergeBlock → α) (hold : blocks[index]? = some old)
    (hf : f new = f old) :
    (blocks.set index new).map f = blocks.map f := by
  obtain ⟨hlt, hget⟩ := List.getElem?_eq_some_iff.mp hold
  rw [map_set, hf, ← hget, ← getElem_map f (h := by simpa using hlt), set_getElem_self]

theorem set_invariant (h : EditInvariant plan) (hold : plan.blocks[index]? = some old)
    (hrows : new.rows = old.rows) (hid : new.id = old.id) (hsound : SoundDecision plan new) :
    EditInvariant (MergePlan.refreshUnresolvedBlocks
      { plan with blocks := plan.blocks.set index new }) := by
  refine decided_invariant h (set_map _ hold hrows) (set_map _ hold hid) fun block hblock => ?_
  rcases mem_or_eq_of_mem_set hblock with hmem | rfl
  · exact h.decisions block hmem
  · exact hsound

end

structure EditStep (plan plan' : MergePlan) (succeeded : Bool) : Prop where
  invariant : EditInvariant plan'
  sources : SameSources plan plan'
  unchanged : succeeded = false → plan' = plan

theorem EditStep.failed {plan : MergePlan} (h : EditInvariant plan) : EditStep plan plan false :=
  ⟨h, ⟨rfl, rfl, rfl, rfl⟩, fun _ => rfl⟩

theorem mem_toggle {selection : OrderedSelection} {source found : MergeSource}
    (h : found ∈ (selection.toggle source).sources) :
    found ∈ selection.sources ∨ found = source := by
  unfold OrderedSelection.toggle at h
  split at h
  · exact Or.inl (mem_of_mem_erase h)
  · rename_i hnot
    rw [OrderedSelection.append, dif_neg hnot, mem_append, mem_singleton] at h
    exact h

section
variable {plan : MergePlan} (h : EditInvariant plan)
include h

theorem EditStep.set
    (hold : plan.blocks[index]? = some old) (hrows : new.rows = old.rows)
    (hid : new.id = old.id) (hsound : SoundDecision plan new) :
    EditStep plan (MergePlan.refreshUnresolvedBlocks
      { plan with blocks := plan.blocks.set index new }) true :=
  ⟨set_invariant h hold hrows hid hsound, ⟨rfl, rfl, rfl, rfl⟩, by simp⟩

theorem toggleSource_step (index : ℕ) (source : MergeSource) :
    EditStep plan (plan.toggleSource index source).1 (plan.toggleSource index source).2 := by
  unfold MergePlan.toggleSource
  split
  · exact .failed h
  rename_i hpresent
  split
  · exact .failed h
  · rename_i block hblock
    have hold := h.decisions block (mem_of_getElem? hblock)
    refine .set h hblock rfl rfl ⟨by simp [MergeBlock.toggleSource], fun found hfound => ?_⟩
    rcases mem_toggle hfound with hfound | rfl
    · exact hold.present found hfound
    · simpa [isSome_iff_ne_none] using hpresent

theorem replaceSelection_step (index : ℕ) (selection : OrderedSelection) :
    EditStep plan (plan.replaceSelection index selection).1
      (plan.replaceSelection index selection).2 := by
  unfold MergePlan.replaceSelection MergePlan.replaceSelectionDeferred
  split
  · exact .failed h
  rename_i hpresent
  split
  · exact .failed h
  · rename_i block hblock
    refine .set h hblock rfl rfl ⟨by simp [MergeBlock.replaceSelection], fun found hfound => ?_⟩
    simp only [List.any_eq_true, not_exists, not_and] at hpresent
    simpa [isSome_iff_ne_none] using hpresent found hfound

theorem setManualContent_step (index : ℕ) (content : List Char) :
    EditStep plan (plan.setManualContent index content).1
      (plan.setManualContent index content).2 := by
  unfold MergePlan.setManualContent MergePlan.setManualContentDeferred
  split
  · exact .failed h
  · rename_i block hblock
    exact .set h hblock rfl rfl ⟨fun _ => rfl, fun found hfound => by cases hfound⟩

end

theorem splice_tiles {plan : MergePlan}
    (h : Tiles (plan.blocks.map MergeBlock.rows) 0 plan.rows.length) (hle : first ≤ last)
    {opening closing : MergeBlock} (hfirst : plan.blocks[first]? = some opening)
    (hlast : plan.blocks[last]? = some closing) {r : List MergeBlock}
    (htiles : Tiles (r.map MergeBlock.rows) opening.rows.start closing.rows.stop) :
    ∃ blocks, refreshIds plan.texts plan.rows (spliceBlocks plan.blocks first last r)
        (fun _ => 0) = some blocks ∧
      MergePlan.refreshBlockIds { plan with blocks := spliceBlocks plan.blocks first last r } =
        some { plan with blocks := blocks } ∧
      Tiles (blocks.map MergeBlock.rows) 0 plan.rows.length := by
  have hcut := tiles_cut h hle (o := opening.rows) (c := closing.rows)
    (by rw [getElem?_map, hfirst]; rfl) (by rw [getElem?_map, hlast]; rfl)
  obtain ⟨hfront, -, hback⟩ := hcut
  have hall : Tiles ((spliceBlocks plan.blocks first last r).map MergeBlock.rows) 0
      plan.rows.length := by
    rw [spliceBlocks, map_append, map_append, map_take, map_drop]
    exact tiles_append hfront (tiles_append htiles hback)
  obtain ⟨refreshed, hrefresh⟩ := refreshIds_exists plan.texts hall fun _ => 0
  refine ⟨refreshed, hrefresh, ?_, refreshIds_map MergeBlock.rows (fun _ _ => rfl) hrefresh ▸ hall⟩
  simp only [MergePlan.refreshBlockIds, MergePlan.texts] at hrefresh ⊢
  rw [hrefresh]
  rfl

theorem splice_invariant {plan : MergePlan} (h : EditInvariant plan)
    (hroom : plan.rows.length ≤ u32Max + 1) {r blocks : List MergeBlock}
    (hrefresh : refreshIds plan.texts plan.rows (spliceBlocks plan.blocks first last r)
      (fun _ => 0) = some blocks)
    (htiles : Tiles (blocks.map MergeBlock.rows) 0 plan.rows.length)
    (hsound : ∀ block ∈ r, SoundDecision plan block) :
    EditInvariant (MergePlan.refreshUnresolvedBlocks { plan with blocks := blocks }) := by
  have hlength := tiles_length htiles
  have hsplice := congrArg length (refreshIds_map (fun _ => ()) (fun _ _ => rfl) hrefresh)
  rw [length_map, length_map] at hsplice
  rw [length_map, zero_add] at hlength
  have hids := (refreshIds_ids hrefresh fun _ => by omega).2
  have hdecisions := refreshIds_map (fun block => (block.selection, block.manualContent))
    (fun _ _ => rfl) hrefresh
  refine ⟨htiles, hids, rfl, fun block hblock => ?_⟩
  have hmem : (block.selection, block.manualContent) ∈ (spliceBlocks plan.blocks first last r).map
        fun block => (block.selection, block.manualContent) :=
    hdecisions ▸ mem_map_of_mem hblock
  obtain ⟨old, hold, heq⟩ := mem_map.mp hmem
  obtain ⟨hselection, hmanual⟩ := Prod.mk.inj heq
  have holdSound : SoundDecision plan old := by
    simp only [spliceBlocks, mem_append] at hold
    rcases hold with hold | hold | hold
    · exact h.decisions old (mem_of_mem_take hold)
    · exact hsound old hold
    · exact h.decisions old (mem_of_mem_drop hold)
  have hsame : SameSources plan
      (MergePlan.refreshUnresolvedBlocks { plan with blocks := blocks }) := ⟨rfl, rfl, rfl, rfl⟩
  exact hsame.sound (sound_of_decision holdSound hselection.symm hmanual.symm)

structure Spliced (plan : MergePlan) (r blocks : List MergeBlock) (first last : ℕ) : Prop where
  refreshed : refreshIds plan.texts plan.rows (spliceBlocks plan.blocks first last r)
    (fun _ => 0) = some blocks
  tiles : Tiles (blocks.map MergeBlock.rows) 0 plan.rows.length

theorem splitBlock_cases {plan : MergePlan}
    (h : Tiles (plan.blocks.map MergeBlock.rows) 0 plan.rows.length) (index : ℕ)
    (parts : List LineCounts) :
    plan.splitBlockBySourceLineCounts index parts = some (plan, none) ∨
      ∃ (original : MergeBlock) (ranges : List LineRange) (blocks : List MergeBlock),
        plan.blocks[index]? = some original ∧
        Spliced plan (ranges.map fun rows => { original with rows := rows }) blocks index index ∧
        plan.splitBlockBySourceLineCounts index parts =
          some (MergePlan.refreshUnresolvedBlocks { plan with blocks := blocks },
            some parts.length) := by
  unfold MergePlan.splitBlockBySourceLineCounts
  split
  · exact Or.inl rfl
  split
  · exact Or.inl rfl
  rename_i original horiginal
  obtain ⟨-, hlt, hle⟩ := tiles_mem h original.rows (mem_map_of_mem (mem_of_getElem? horiginal))
  rw [sliceOf_eq (le_of_lt hlt) hle, bind_eq_bind, bind_some]
  split
  · exact Or.inl rfl
  split
  · exact Or.inl rfl
  rename_i ranges cursor hranges
  split
  · exact Or.inl rfl
  rename_i hstop
  rw [not_not] at hstop
  subst hstop
  have htiles := partRanges_tiles hranges
  obtain ⟨blocks, hblocks, hrefresh, hall⟩ := splice_tiles h (le_refl index) horiginal
    horiginal (r := ranges.map fun rows => { original with rows := rows })
    (by simpa [Function.comp_def] using htiles)
  dsimp only
  rw [hrefresh]
  exact Or.inr ⟨original, ranges, blocks, horiginal, ⟨hblocks, hall⟩, rfl⟩

theorem joinBlockRange_cases {plan : MergePlan}
    (h : Tiles (plan.blocks.map MergeBlock.rows) 0 plan.rows.length) (first last : ℕ) :
    plan.joinBlockRange first last = some (plan, none) ∨
      ∃ range rows blocks, Spliced plan [joinedBlock plan.hasBase range rows] blocks first last ∧
        plan.joinBlockRange first last =
          some (MergePlan.refreshUnresolvedBlocks { plan with blocks := blocks },
            some (last - first)) := by
  unfold MergePlan.joinBlockRange
  split
  · exact Or.inl rfl
  rename_i hbounds
  rw [not_or, not_lt, not_le] at hbounds
  obtain ⟨hle, hlast⟩ := hbounds
  have hopening := getElem?_eq_getElem (lt_of_le_of_lt hle hlast)
  have hclosing := getElem?_eq_getElem hlast
  generalize plan.blocks[first] = opening at hopening
  generalize plan.blocks[last] = closing at hclosing
  obtain ⟨-, hpos, hback⟩ := tiles_cut h hle (o := opening.rows) (c := closing.rows)
    (by rw [getElem?_map, hopening]; rfl) (by rw [getElem?_map, hclosing]; rfl)
  have hstop := tiles_le hback
  simp only [hopening, hclosing, bind_eq_bind, bind_some,
    sliceOf_eq (le_of_lt hpos) hstop]
  obtain ⟨blocks, hblocks, hrefresh, hall⟩ := splice_tiles h hle hopening hclosing
    (r := [joinedBlock plan.hasBase ⟨opening.rows.start, closing.rows.stop⟩
      (slice plan.rows opening.rows.start closing.rows.stop)]) (.cons hpos (.nil _))
  rw [hrefresh]
  exact Or.inr ⟨_, _, blocks, ⟨hblocks, hall⟩, rfl⟩

theorem splitBlock_step {plan : MergePlan} (h : EditInvariant plan)
    (hroom : plan.rows.length ≤ u32Max + 1) (index : ℕ) (parts : List LineCounts) :
    ∃ result, plan.splitBlockBySourceLineCounts index parts = some result ∧
      EditStep plan result.1 result.2.isSome := by
  rcases splitBlock_cases h.tiles index parts with
    heq | ⟨original, ranges, blocks, horiginal, hspliced, heq⟩
  · exact ⟨_, heq, .failed h⟩
  · refine ⟨_, heq, splice_invariant h hroom hspliced.refreshed hspliced.tiles
      fun block hblock => ?_, ⟨rfl, rfl, rfl, rfl⟩, by simp⟩
    obtain ⟨rows, -, rfl⟩ := mem_map.mp hblock
    exact sound_of_decision (h.decisions original (mem_of_getElem? horiginal)) rfl rfl

theorem joinBlockRange_step {plan : MergePlan} (h : EditInvariant plan)
    (hroom : plan.rows.length ≤ u32Max + 1) (first last : ℕ) :
    ∃ result, plan.joinBlockRange first last = some result ∧
      EditStep plan result.1 result.2.isSome := by
  rcases joinBlockRange_cases h.tiles first last with heq | ⟨range, rows, blocks, hspliced, heq⟩
  · exact ⟨_, heq, .failed h⟩
  · refine ⟨_, heq, splice_invariant h hroom hspliced.refreshed hspliced.tiles
      fun block hblock => ?_, ⟨rfl, rfl, rfl, rfl⟩, by simp⟩
    rw [mem_singleton.mp hblock]
    exact ⟨fun _ => rfl, fun source hsource => by cases hsource⟩

end GitComet.Merge
