import GitComet.FileDiff.MyersMinimal

namespace GitComet.FileDiff
open Slice List Nat

variable {α : Type}

structure DiffHunk (α : Type) where
  baseStart : ℕ
  baseEnd : ℕ
  newLines : List α
  deriving DecidableEq

def hunkLoop [Inhabited α] : List (Edit α) → ℕ → Option (DiffHunk α) → List (DiffHunk α)
  | [], _, hunk => hunk.toList
  | edit :: edits, baseIx, hunk =>
    let current := hunk.getD ⟨baseIx, baseIx, []⟩
    match edit.kind with
    | .equal => hunk.toList ++ hunkLoop edits (baseIx + 1) none
    | .delete => hunkLoop edits (baseIx + 1) (some { current with baseEnd := baseIx + 1 })
    | .insert => hunkLoop edits baseIx
        (some { current with newLines := current.newLines ++ [edit.new.getD default] })

def editsToHunks [Inhabited α] (edits : List (Edit α)) : List (DiffHunk α) :=
  hunkLoop edits 0 none

def reconstructFrom (base : List α) (rangeEnd : ℕ) : ℕ → List (DiffHunk α) → List α
  | pos, [] => slice base pos rangeEnd
  | pos, hunk :: hunks =>
    let baseLimit := max (min hunk.baseStart rangeEnd) pos
    slice base pos baseLimit ++
      (hunk.newLines ++ reconstructFrom base rangeEnd (max (min hunk.baseEnd rangeEnd) pos) hunks)

def reconstructSide (base : List α) (start stop : ℕ) (hunks : List (DiffHunk α)) : List α :=
  let rangeEnd := min stop base.length
  reconstructFrom base rangeEnd (min start rangeEnd) hunks

def rebuild (base : List α) : ℕ → List (DiffHunk α) → List α
  | pos, [] => base.drop pos
  | pos, hunk :: hunks =>
    slice base pos hunk.baseStart ++ (hunk.newLines ++ rebuild base hunk.baseEnd hunks)

def Sorted (len : ℕ) : ℕ → List (DiffHunk α) → Prop
  | pos, [] => pos ≤ len
  | pos, hunk :: hunks =>
    pos ≤ hunk.baseStart ∧ hunk.baseStart ≤ hunk.baseEnd ∧ Sorted len hunk.baseEnd hunks

def DiffHunk.cost (hunk : DiffHunk α) : ℕ := hunk.baseEnd - hunk.baseStart + hunk.newLines.length

def hunksCost (hunks : List (DiffHunk α)) : ℕ := (hunks.map DiffHunk.cost).sum

variable {len : ℕ} {hunks : List (DiffHunk α)}

theorem sorted_le : ∀ {pos : ℕ}, Sorted len pos hunks → pos ≤ len := by
  induction hunks with
  | nil => exact fun h => h
  | cons hunk hunks ih =>
    rintro pos ⟨hstart, hstop, hrest⟩
    exact le_trans hstart (le_trans hstop (ih hrest))

variable {pos : ℕ}

theorem sorted_mono {pos' : ℕ} (h : Sorted len pos' hunks)
    (hle : pos ≤ pos') : Sorted len pos hunks := by
  cases hunks with
  | nil => exact le_trans hle h
  | cons hunk hunks => exact ⟨le_trans hle h.1, h.2⟩

theorem hunksCost_append (hunks hunks' : List (DiffHunk α)) :
    hunksCost (hunks ++ hunks') = hunksCost hunks + hunksCost hunks' := by
  rw [hunksCost, map_append, List.sum_append]
  rfl

theorem rebuild_before {base : List α} {pos' : ℕ}
    (h : Sorted base.length pos' hunks) (hle : pos ≤ pos') :
    rebuild base pos hunks = slice base pos pos' ++ rebuild base pos' hunks := by
  cases hunks with
  | nil =>
    rw [rebuild, rebuild, ← slice_to_end, ← slice_to_end, slice_append _ hle h]
  | cons hunk hunks =>
    rw [rebuild, rebuild, ← slice_append _ hle h.1, append_assoc]

structure LoopHunks (base new : List α) (pos : ℕ) (changed : ℕ) (hunks : List (DiffHunk α)) :
    Prop where
  sorted : Sorted base.length pos hunks
  rebuilt : rebuild base pos hunks = new
  cost : hunksCost hunks = changed
  nonempty : ∀ hunk ∈ hunks, 0 < hunk.cost

structure OpenHunk (baseIx : ℕ) (hunk : DiffHunk α) : Prop where
  stop : hunk.baseEnd = baseIx
  le : hunk.baseStart ≤ baseIx
  nonempty : 0 < hunk.cost

variable {new : List α} {baseIx : ℕ} {hunk : DiffHunk α}

theorem loopHunks_close {base : List α} {changed : ℕ} (hopen : OpenHunk baseIx hunk)
    (h : LoopHunks base new baseIx changed hunks) :
    LoopHunks base (hunk.newLines ++ new) hunk.baseStart (hunk.cost + changed) (hunk :: hunks) := by
  obtain ⟨rfl, hle, hpos⟩ := hopen
  refine ⟨⟨le_rfl, hle, h.sorted⟩, ?_, ?_, ?_⟩
  · rw [rebuild, slice_self, nil_append, h.rebuilt]
  · rw [hunksCost, map_cons, sum_cons]
    exact congrArg _ h.cost
  · intro other hother
    rcases List.mem_cons.mp hother with rfl | hother
    · exact hpos
    · exact h.nonempty other hother

theorem loopHunks_back {base : List α} {changed : ℕ} {line : α} (hline : base[baseIx]? = some line)
    (h : LoopHunks base new (baseIx + 1) changed hunks) :
    LoopHunks base (line :: new) baseIx changed hunks := by
  refine ⟨sorted_mono h.sorted (le_succ _), ?_, h.cost, h.nonempty⟩
  rw [rebuild_before h.sorted (le_succ _), h.rebuilt, slice_cons (lt_succ_self _) hline,
    slice_self]
  rfl

theorem openHunk_delete (h : OpenHunk baseIx hunk) :
    OpenHunk (baseIx + 1) { hunk with baseEnd := baseIx + 1 } ∧
      DiffHunk.cost { hunk with baseEnd := baseIx + 1 } = hunk.cost + 1 := by
  have hcost : DiffHunk.cost { hunk with baseEnd := baseIx + 1 } = hunk.cost + 1 := by
    have := h.le
    simp only [DiffHunk.cost, h.stop]
    omega
  exact ⟨⟨rfl, le_succ_of_le h.le, by omega⟩, hcost⟩

theorem openHunk_insert (h : OpenHunk baseIx hunk) (line : α) :
    OpenHunk baseIx { hunk with newLines := hunk.newLines ++ [line] } ∧
      DiffHunk.cost { hunk with newLines := hunk.newLines ++ [line] } = hunk.cost + 1 := by
  have hcost : DiffHunk.cost { hunk with newLines := hunk.newLines ++ [line] } =
      hunk.cost + 1 := by
    rw [DiffHunk.cost, DiffHunk.cost, length_append]
    rfl
  exact ⟨⟨h.stop, h.le, by omega⟩, hcost⟩

variable [Inhabited α] in
theorem hunkLoop_spec {base xs ys : List α} {edits : List (Edit α)} (h : Script xs ys edits) :
    ∀ {baseIx : ℕ}, base.drop baseIx = xs → baseIx ≤ base.length →
      LoopHunks base ys baseIx (changes edits) (hunkLoop edits baseIx none) ∧
      ∀ hunk, OpenHunk baseIx hunk →
        LoopHunks base (hunk.newLines ++ ys) hunk.baseStart (hunk.cost + changes edits)
          (hunkLoop edits baseIx (some hunk)) := by
  induction h with
  | nil =>
    intro baseIx hdrop hle
    have hnone : LoopHunks base [] baseIx 0 [] := ⟨hle, hdrop, rfl, by simp⟩
    exact ⟨hnone, fun hunk hopen => loopHunks_close hopen hnone⟩
  | @equal xs ys edits line _ ih =>
    intro baseIx hdrop hle
    obtain ⟨hline, hrest⟩ := drop_cons hdrop
    have hback := loopHunks_back hline (ih hrest (List.getElem?_eq_some_iff.mp hline).1).1
    rw [changes_equal]
    exact ⟨hback, fun hunk hopen => loopHunks_close hopen hback⟩
  | @delete xs ys edits line _ ih =>
    intro baseIx hdrop hle
    obtain ⟨hline, hrest⟩ := drop_cons hdrop
    have hopened := (ih hrest (List.getElem?_eq_some_iff.mp hline).1).2
    rw [changes_delete]
    refine ⟨?_, fun hunk hopen => ?_⟩
    · have hfresh := hopened ⟨baseIx, baseIx + 1, []⟩
        ⟨rfl, le_succ _, by simp [DiffHunk.cost]⟩
      have hcost : DiffHunk.cost (⟨baseIx, baseIx + 1, []⟩ : DiffHunk α) = 1 := by
        simp [DiffHunk.cost]
      rw [hcost, add_comm 1] at hfresh
      exact hfresh
    · obtain ⟨hopen', hcost⟩ := openHunk_delete hopen
      have hnext := hopened _ hopen'
      rw [hcost, Nat.add_right_comm] at hnext
      exact hnext
  | @insert xs ys edits line _ ih =>
    intro baseIx hdrop hle
    have hopened := (ih hdrop hle).2
    rw [changes_insert]
    refine ⟨?_, fun hunk hopen => ?_⟩
    · have hfresh := hopened ⟨baseIx, baseIx, [line]⟩
        ⟨rfl, le_rfl, by simp [DiffHunk.cost]⟩
      have hcost : DiffHunk.cost (⟨baseIx, baseIx, [line]⟩ : DiffHunk α) = 1 := by
        simp [DiffHunk.cost]
      rw [hcost, add_comm 1] at hfresh
      exact hfresh
    · obtain ⟨hopen', hcost⟩ := openHunk_insert hopen line
      have hnext := hopened _ hopen'
      rw [hcost, Nat.add_right_comm, append_assoc] at hnext
      exact hnext

def Least (base : List α) (pos : ℕ) (hunks : List (DiffHunk α)) : Prop :=
  ∀ other, Sorted base.length pos other → rebuild base pos other = rebuild base pos hunks →
    hunksCost hunks ≤ hunksCost other

structure SideHunks (base : List α) (pos : ℕ) (hunks : List (DiffHunk α)) : Prop where
  sorted : Sorted base.length pos hunks
  nonempty : ∀ hunk ∈ hunks, 0 < hunk.cost
  least : Least base pos hunks

theorem changes_append (edits edits' : List (Edit α)) :
    changes (edits ++ edits') = changes edits + changes edits' := countP_append

theorem script_of_hunks {base : List α} : ∀ {pos : ℕ}, Sorted base.length pos hunks →
      ∃ edits, Script (base.drop pos) (rebuild base pos hunks) edits ∧
        changes edits = hunksCost hunks := by
  induction hunks with
  | nil => exact fun _ => ⟨_, script_equals _, changes_equals _⟩
  | cons hunk hunks ih =>
    rintro pos ⟨hstart, hstop, hrest⟩
    obtain ⟨edits, hscript, hchanges⟩ := ih hrest
    have hreplace := (script_deletes (slice base hunk.baseStart hunk.baseEnd)).append
      (script_inserts hunk.newLines)
    rw [append_nil, nil_append] at hreplace
    have hall := (script_equals (slice base pos hunk.baseStart)).append (hreplace.append hscript)
    have hle := sorted_le hrest
    rw [← slice_to_end, slice_append _ hstop hle, slice_append _ hstart (le_trans hstop hle),
      slice_to_end] at hall
    refine ⟨_, hall, ?_⟩
    rw [changes_append, changes_equals, changes_append, changes_replaced, hchanges,
      length_slice (hle), zero_add]
    rfl

theorem editsToHunks_least [Inhabited α] {base : List α} {edits : List (Edit α)}
    (h : Script base new edits)
    (hleast : ∀ other, Script base new other → changes edits ≤ changes other) :
    SideHunks base 0 (editsToHunks edits) ∧ rebuild base 0 (editsToHunks edits) = new := by
  have hloop : LoopHunks base new 0 (changes edits) (hunkLoop edits 0 none) :=
    (hunkLoop_spec h rfl (Nat.zero_le _)).1
  refine ⟨⟨hloop.sorted, hloop.nonempty, fun other hsorted hsame => ?_⟩, hloop.rebuilt⟩
  obtain ⟨edits', hscript, hchanges⟩ := script_of_hunks hsorted
  rw [hsame, editsToHunks, hloop.rebuilt, drop_zero] at hscript
  rw [editsToHunks, hloop.cost, ← hchanges]
  exact hleast edits' hscript

structure RegionHunks (base : List α) (start stop : ℕ) (taken rest : List (DiffHunk α)) :
    Prop where
  sorted : Sorted base.length start (taken ++ rest)
  within : ∀ hunk ∈ taken, hunk.baseEnd ≤ stop
  beyond : ∀ hunk ∈ rest.head?, stop ≤ hunk.baseStart
  start_le : start ≤ stop
  stop_le : stop ≤ base.length

section
variable {base : List α} {start stop : ℕ} {taken rest : List (DiffHunk α)}

theorem sorted_of_head (h : Sorted len pos hunks)
    (hstop : stop ≤ len) (hbeyond : ∀ hunk ∈ hunks.head?, stop ≤ hunk.baseStart) :
    Sorted len stop hunks := by
  cases hunks with
  | nil => exact hstop
  | cons hunk hunks => exact ⟨hbeyond hunk rfl, h.2⟩

theorem sorted_region : ∀ {pos : ℕ}, Sorted len pos (taken ++ rest) →
    (∀ hunk ∈ taken, hunk.baseEnd ≤ stop) → pos ≤ stop → ∀ {other : List (DiffHunk α)},
      Sorted len stop other → Sorted len pos (taken ++ other) := by
  induction taken with
  | nil => exact fun _ _ hle other hother => sorted_mono hother hle
  | cons hunk taken ih =>
    intro pos h hwithin hle other hother
    exact ⟨h.1, h.2.1, ih h.2.2 (fun found hfound => hwithin found (mem_cons_of_mem _ hfound))
      (hwithin hunk mem_cons_self) hother⟩

theorem RegionHunks.rest_sorted (h : RegionHunks base start stop taken rest) :
    Sorted base.length stop rest := by
  suffices hall : Sorted base.length 0 rest from sorted_of_head hall h.stop_le h.beyond
  have hsorted := h.sorted
  clear h
  induction taken generalizing start with
  | nil => exact sorted_mono hsorted (Nat.zero_le _)
  | cons hunk taken ih => exact ih hsorted.2.2

theorem rebuild_within : ∀ {pos : ℕ}, Sorted base.length pos (taken ++ rest) →
    (∀ hunk ∈ taken, hunk.baseEnd ≤ stop) → pos ≤ stop → Sorted base.length stop rest →
      rebuild base pos (taken ++ rest) =
        reconstructFrom base stop pos taken ++ rebuild base stop rest := by
  induction taken with
  | nil => exact fun _ _ hle hrest => rebuild_before hrest hle
  | cons hunk taken ih =>
    intro pos h hwithin hle hrest
    obtain ⟨hstart, hspan, htail⟩ := h
    have hstop := hwithin hunk mem_cons_self
    have hlimit : max (min hunk.baseStart stop) pos = hunk.baseStart := by omega
    have hend : max (min hunk.baseEnd stop) pos = hunk.baseEnd := by omega
    have hlater := ih htail (fun found hfound => hwithin found (mem_cons_of_mem _ hfound))
      hstop hrest
    rw [cons_append, rebuild, hlater, reconstructFrom, hlimit, hend]
    simp only [append_assoc]

theorem rebuild_region (h : RegionHunks base start stop taken rest) :
    rebuild base start (taken ++ rest) =
      reconstructSide base start stop taken ++ rebuild base stop rest := by
  rw [reconstructSide, min_eq_left h.stop_le, min_eq_left h.start_le]
  exact rebuild_within h.sorted h.within h.start_le h.rest_sorted

theorem reconstructSide_nil (hstart : start ≤ stop) (hstop : stop ≤ base.length) :
    reconstructSide base start stop [] = slice base start stop := by
  rw [reconstructSide, min_eq_left hstop, min_eq_left hstart]
  rfl

theorem sideHunks_rest (hside : SideHunks base start (taken ++ rest))
    (h : RegionHunks base start stop taken rest) : SideHunks base stop rest := by
  refine ⟨h.rest_sorted, fun hunk hhunk => hside.nonempty hunk (mem_append_right _ hhunk),
    fun other hother hsame => ?_⟩
  have hregion : RegionHunks base start stop taken other → hunksCost (taken ++ rest) ≤
      hunksCost (taken ++ other) := fun hregion =>
    hside.least _ hregion.sorted (by rw [rebuild_region hregion, rebuild_region h, hsame])
  have hle := hregion ⟨sorted_region h.sorted h.within h.start_le hother, h.within,
    fun hunk hhunk => ?_, h.start_le, h.stop_le⟩
  · rw [hunksCost_append, hunksCost_append] at hle
    exact Nat.le_of_add_le_add_left hle
  · obtain ⟨tail, rfl⟩ : ∃ tail, other = hunk :: tail := by
      cases other with
      | nil => cases hhunk
      | cons found tail => exact ⟨tail, by rw [Option.mem_some_iff.mp hhunk]⟩
    exact hother.1

theorem region_differs (hside : SideHunks base start (taken ++ rest))
    (h : RegionHunks base start stop taken rest) (hne : taken ≠ []) :
    reconstructSide base start stop taken ≠ slice base start stop := by
  intro hsame
  have hle := hside.least rest (sorted_mono h.rest_sorted h.start_le) (by
    rw [rebuild_region h, hsame, rebuild_before h.rest_sorted h.start_le])
  rw [hunksCost_append] at hle
  obtain ⟨hunk, taken, rfl⟩ := exists_cons_of_ne_nil hne
  have hpos := hside.nonempty hunk (by simp)
  rw [hunksCost, map_cons, sum_cons] at hle
  omega

end

end GitComet.FileDiff
