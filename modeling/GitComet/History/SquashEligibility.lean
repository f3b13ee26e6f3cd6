import Mathlib.Data.List.Dedup
import GitComet.History.Reference
import GitComet.Store.Squash

namespace GitComet.History
open Slice ByteOrder Text Store List Nat

def pageCommit (commit : Push) : Commit :=
  ⟨Hex.encode commit.id, commit.parents.map Hex.encode⟩

namespace HistoryIndex
variable (index : HistoryIndex)

def parentCommitId (row parent : ℕ) : Option (Option CommitId) :=
  (index.parentIdBytes row parent).map fun id => id.map Hex.encode

def positions : List CommitId → Option (Option (List ℕ))
  | [] => some (some [])
  | id :: ids => do
    match ← index.position id with
    | none => some none
    | some row =>
      match ← positions ids with
      | none => some none
      | some rows => some (some (row :: rows))

def squashRows (selectedRows : List ℕ) (count : ℕ) (actualHead : CommitId) :
    ℕ → ℕ → List CommitId → Option (Option SquashPlan)
  | 0, _, _ => some none
  | steps + 1, row, orderedIds => do
    match ← index.parentsOf row with
    | [parent] =>
      if selectedRows.contains row then
        match index.commitId row with
        | none => some none
        | some id =>
          if (orderedIds ++ [id]).length = count then
            match ← index.parentCommitId row 0 with
            | none => some none
            | some oldestParent =>
              some (some ⟨actualHead, (orderedIds ++ [id]).headD id, id, oldestParent, count,
                orderedIds ++ [id]⟩)
          else squashRows selectedRows count actualHead steps parent (orderedIds ++ [id])
      else if !orderedIds.isEmpty then some none
      else squashRows selectedRows count actualHead steps parent orderedIds
    | _ => some none

def squashEligibilityIndexed (selected : List CommitId) (actualHead : CommitId) :
    Option (Option SquashPlan) :=
  if selected.length < 2 then some none
  else do
    match ← index.positions selected with
    | none => some none
    | some rows =>
      if rows.dedup.length ≠ selected.length then some none
      else match ← index.position actualHead with
        | none => some none
        | some row => index.squashRows rows selected.length actualHead index.len row []

end HistoryIndex

def squashLoop (commits : List Commit) (selected : List CommitId) (actualHead : CommitId) :
    ℕ → CommitId → List CommitId → Bool → Bool → Option (Option SquashPlan)
  | 0, _, _, _, _ => none
  | fuel + 1, current, orderedIds, insideSelection, gapWithinSelection =>
    match soleParent commits current with
    | none => some none
    | some parent =>
      if selected.contains current then
        if gapWithinSelection then some none
        else if (orderedIds ++ [current]).length = selected.length then
          some (some ⟨actualHead, orderedIds.headD current, current, parent, selected.length,
            orderedIds ++ [current]⟩)
        else
          squashLoop commits selected actualHead fuel parent (orderedIds ++ [current]) true
            gapWithinSelection
      else
        squashLoop commits selected actualHead fuel parent orderedIds insideSelection
          (insideSelection || gapWithinSelection)

def squashVerdict (fuel : ℕ) (commits : List Commit) (selected : List CommitId)
    (actualHead : CommitId) : Option (Option SquashPlan) :=
  if selected.length < 2 then some none
  else if ¬selected.Nodup then some none
  else if selected.any fun id => (commitById commits id).isNone then some none
  else squashLoop commits selected actualHead fuel actualHead [] false false

theorem squashLoop_walk {commits : List Commit} {selected : List CommitId} {actualHead : CommitId} :
    ∀ {fuel : ℕ} {current : CommitId} {orderedIds : List CommitId} {inside gap : Bool}
      {verdict : Option SquashPlan},
      squashLoop commits selected actualHead fuel current orderedIds inside gap = some verdict →
        squashWalk commits selected actualHead fuel current orderedIds inside gap = verdict := by
  intro fuel
  induction fuel with
  | zero => exact fun h => nomatch h
  | succ fuel ih =>
    intro current orderedIds inside gap verdict h
    rw [squashLoop] at h
    rw [squashWalk]
    cases hparent : soleParent commits current with
    | none =>
      rw [hparent] at h
      exact Option.some.inj h
    | some parent =>
      rw [hparent] at h
      dsimp only at h
      rw [Option.bind_some]
      split_ifs at h ⊢
      · exact Option.some.inj h
      · exact Option.some.inj h
      · exact ih h
      · exact ih h

theorem squashVerdict_eligibility {fuel : ℕ} {commits : List Commit} {selected : List CommitId}
    {actualHead : CommitId} {verdict : Option SquashPlan}
    (h : squashVerdict fuel commits selected actualHead = some verdict) :
    squashEligibility fuel commits selected actualHead = verdict := by
  rw [squashVerdict] at h
  rw [squashEligibility]
  split_ifs at h ⊢
  · exact Option.some.inj h
  · exact Option.some.inj h
  · exact squashLoop_walk h
  · exact Option.some.inj h

def ParentOf (commits : List Push) (parent child : Bytes) : Prop :=
  ∃ commit ∈ commits, commit.id = child ∧ parent ∈ commit.parents

def Acyclic (commits : List Push) : Prop :=
  ∀ id, ¬Relation.TransGen (ParentOf commits) id id

theorem acyclic_of_height {commits : List Push} (height : Bytes → ℕ)
    (h : ∀ commit ∈ commits, ∀ parent ∈ commit.parents, height parent < height commit.id) :
    Acyclic commits := by
  have hrises : ∀ a b, Relation.TransGen (ParentOf commits) a b → height a < height b := by
    intro a b hab
    induction hab with
    | single hedge =>
      obtain ⟨commit, hcommit, rfl, hparent⟩ := hedge
      exact h commit hcommit _ hparent
    | tail _ hedge ih =>
      obtain ⟨commit, hcommit, rfl, hparent⟩ := hedge
      exact lt_trans ih (h commit hcommit _ hparent)
  exact fun id hcycle => absurd (hrises id id hcycle) (lt_irrefl _)

structure Walked (commits : List Push) (visited : List Bytes) (current : Bytes) : Prop where
  nodup : visited.Nodup
  inside : ∀ id ∈ visited, id ∈ commitIds commits
  above : ∀ id ∈ visited, Relation.TransGen (ParentOf commits) current id

section
variable {commits : List Push} {visited : List Bytes} {current : Bytes}

theorem Walked.start (current : Bytes) : Walked commits [] current :=
  ⟨nodup_nil, by simp, by simp⟩

section
variable (h : Walked commits visited current)
include h

theorem Walked.fresh (hacyclic : Acyclic commits) :
    current ∉ visited := fun hmem => hacyclic current (h.above current hmem)

theorem Walked.room (hacyclic : Acyclic commits)
    (hcurrent : current ∈ commitIds commits) : visited.length < commits.length := by
  have hsub : (current :: visited).Subperm (commitIds commits) :=
    subperm_of_subset (nodup_cons.mpr ⟨h.fresh hacyclic, h.nodup⟩) fun id hid => by
      rcases mem_cons.mp hid with rfl | hid
      · exact hcurrent
      · exact h.inside id hid
  have := hsub.length_le
  rwa [commitIds, length_map, length_cons] at this

theorem Walked.bound : visited.length ≤ commits.length := by
  have := (subperm_of_subset h.nodup h.inside).length_le
  rwa [commitIds, length_map] at this

end

theorem Walked.step (h : Walked commits visited current) (hacyclic : Acyclic commits)
    {commit : Push} (hcommit : commit ∈ commits) (hid : commit.id = current) (parent : Bytes)
    (hparent : parent ∈ commit.parents) : Walked commits (current :: visited) parent where
  nodup := nodup_cons.mpr ⟨h.fresh hacyclic, h.nodup⟩
  inside id hmem := by
    rcases mem_cons.mp hmem with rfl | hmem
    · exact hid ▸ mem_map_of_mem hcommit
    · exact h.inside id hmem
  above id hmem := by
    have hedge : ParentOf commits parent current := ⟨commit, hcommit, hid, hparent⟩
    rcases mem_cons.mp hmem with rfl | hmem
    · exact .single hedge
    · exact .head hedge (h.above id hmem)

end

theorem encode_inj {a b : Bytes} (h : Hex.encode a = Hex.encode b) : a = b := by
  have := congrArg Hex.decode h
  rw [Hex.decode_encode, Hex.decode_encode] at this
  exact Option.some.inj this

variable {id : CommitId}

theorem commitById_iff {page : List Commit} (hdistinct : (page.map Commit.id).Nodup)
    {commit : Commit} :
    commitById page id = some commit ↔ commit ∈ page ∧ commit.id = id := by
  rw [commitById]
  constructor
  · intro h
    exact ⟨mem_reverse.mp (mem_of_find?_eq_some h), by simpa using find?_some h⟩
  · rintro ⟨hmem, rfl⟩
    cases hfind : page.reverse.find? fun other => decide (other.id = commit.id) with
    | none =>
      rw [find?_eq_none] at hfind
      simpa using hfind commit (mem_reverse.mpr hmem)
    | some other =>
      have hother := mem_reverse.mp (mem_of_find?_eq_some hfind)
      have hsame : other.id = commit.id := by simpa using find?_some hfind
      rw [inj_on_of_nodup_map hdistinct hother hmem hsame]

variable {commit : Push}

section
variable {commits : List Push} {page : List Commit}

structure PageOf (commits : List Push) (page : List Commit) : Prop where
  same : page.Perm (commits.map pageCommit)
  distinct : (commitIds commits).Nodup

section
variable (h : PageOf commits page)
include h

theorem PageOf.nodup : (page.map Commit.id).Nodup := by
  have hids : (commits.map pageCommit).map Commit.id = (commitIds commits).map Hex.encode := by
    rw [commitIds, map_map, map_map]
    rfl
  rw [(h.same.map Commit.id).nodup_iff, hids]
  exact h.distinct.map fun _ _ => encode_inj

theorem PageOf.lookup (hcommit : commit ∈ commits) :
    commitById page (Hex.encode commit.id) = some (pageCommit commit) :=
  (commitById_iff h.nodup).mpr
    ⟨h.same.mem_iff.mpr (mem_map_of_mem hcommit), rfl⟩

theorem PageOf.missing
    (hid : ∀ commit ∈ commits, Hex.encode commit.id ≠ id) : commitById page id = none := by
  cases hfind : commitById page id with
  | none => rfl
  | some found =>
    obtain ⟨hmem, hfound⟩ := (commitById_iff h.nodup).mp hfind
    obtain ⟨commit, hcommit, rfl⟩ := mem_map.mp (h.same.mem_iff.mp hmem)
    exact absurd hfound (hid commit hcommit)

theorem PageOf.outside {id : Bytes} (hid : id ∉ commitIds commits) :
    soleParent page (Hex.encode id) = none := by
  have hnone : commitById page (Hex.encode id) = none := h.missing fun commit hcommit heq => by
    have hmem : commit.id ∈ commitIds commits := mem_map_of_mem hcommit
    exact hid (encode_inj heq ▸ hmem)
  rw [soleParent, hnone]
  rfl

theorem PageOf.soleParent (hcommit : commit ∈ commits) :
    Store.soleParent page (Hex.encode commit.id) =
      match commit.parents with
      | [parent] => some (Hex.encode parent)
      | _ => none := by
  rw [Store.soleParent, h.lookup hcommit, Option.bind_some, pageCommit]
  match commit.parents with
  | [] => rfl
  | [_] => rfl
  | _ :: _ :: _ => rfl

end

variable {selected : List CommitId} {actualHead : CommitId}

theorem loop_behind_gap (hpage : PageOf commits page) (hacyclic : Acyclic commits) :
    ∀ {fuel : ℕ} {visited : List Bytes} {current : Bytes} {orderedIds : List CommitId},
      Walked commits visited current → commits.length < visited.length + fuel →
        squashLoop page selected actualHead fuel (Hex.encode current) orderedIds true true =
          some none := by
  intro fuel
  induction fuel with
  | zero =>
    intro visited current orderedIds h hfuel
    have := h.bound
    omega
  | succ fuel ih =>
    intro visited current orderedIds h hfuel
    rw [squashLoop]
    by_cases hcurrent : current ∈ commitIds commits
    · obtain ⟨commit, hcommit, rfl⟩ := mem_map.mp hcurrent
      rw [hpage.soleParent hcommit]
      split
      · rfl
      · rename_i parent hparent
        split at hparent
        · rename_i only honly
          cases hparent
          have hstep := h.step hacyclic hcommit rfl only
            (by rw [honly]; exact mem_singleton_self _)
          split
          · rfl
          · exact ih hstep (by rw [length_cons]; omega)
        · cases hparent
    · rw [hpage.outside hcurrent]

end

inductive At (commits : List Push) : ℕ → Bytes → Prop
  | row {row : ℕ} {commit : Push} : commits[row]? = some commit → At commits row commit.id
  | beyond {row : ℕ} {id : Bytes} : commits.length ≤ row → id ∉ commitIds commits →
      At commits row id

theorem BuiltIndex.indexes {commits : List Push} {index : HistoryIndex}
    (h : BuiltIndex commits index) (hdistinct : (commitIds commits).Nodup) :
    IndexesHistory commits index := by
  obtain ⟨hashLen, cancelled, hindex⟩ := h
  obtain ⟨builder, hbuilt, hfinish⟩ := buildIndex_some hindex
  rcases finish_finished hbuilt hdistinct cancelled with ⟨hnone, -⟩ | ⟨found, rank, hfound, hrank⟩
  · rw [hnone] at hfinish
    cases hfinish
  · obtain rfl := Option.some.inj (hfound.symm.trans hfinish)
    exact finished_indexes hrank

section
variable {commits : List Push} {index : HistoryIndex} {page : List Commit}

theorem row_commitId (hrows : FinishedRows commits index) {row : ℕ}
    (hrow : commits[row]? = some commit) :
    index.commitId row = some (Hex.encode commit.id) := by
  rw [HistoryIndex.commitId, hrows.column.idBytes, commitIds, getElem?_map, hrow]
  rfl

theorem position_lower (hrows : FinishedRows commits index)
    (hindexes : IndexesHistory commits index) (hlower : ∀ c ∈ id, c ∉ Hex.upperDigits) :
    ∃ result, index.position id = some result ∧ ∀ row : ℕ, result = some row ↔
      ∃ commit, commits[row]? = some commit ∧ id = Hex.encode commit.id := by
  have hsize := hrows.column.size
  have hids : ∀ commit ∈ commits, commit.id.length = index.hashLen := fun commit hcommit =>
    hrows.column.length _ (mem_map_of_mem hcommit)
  have hencoded : ∀ {row : ℕ} {commit : Push}, commits[row]? = some commit →
      id = Hex.encode commit.id → Hex.decode id = some commit.id ∧
        byteLen id = index.hashLen * 2 := by
    intro row commit hrow hid
    have hdecode := (Hex.decode_lower hlower).mpr hid
    exact ⟨hdecode, by rw [Hex.decode_byteLen hdecode, hids commit (mem_of_getElem? hrow)]⟩
  rw [HistoryIndex.position]
  split
  · rename_i hlength
    refine ⟨none, rfl, fun row => ⟨nofun, fun ⟨commit, hrow, hid⟩ => ?_⟩⟩
    exact absurd (hencoded hrow hid).2 hlength
  rename_i hlength
  rw [not_not] at hlength
  split
  · rename_i hnone
    refine ⟨none, rfl, fun row => ⟨nofun, fun ⟨commit, hrow, hid⟩ => ?_⟩⟩
    rw [(hencoded hrow hid).1] at hnone
    cases hnone
  · rename_i bytes hbytes
    have hwidth : bytes.length = index.hashLen := by
      have := Hex.decode_byteLen hbytes
      omega
    have hslice : sliceOf ((bytes ++ replicate 32 0).take 32) 0 index.hashLen =
        some bytes := by
      rw [sliceOf_eq (Nat.zero_le _) (by simp; omega), slice_zero, take_take,
        min_eq_left (by omega), ← hwidth, take_left]
    obtain ⟨result, hresult, hposition⟩ := hindexes.position bytes
    refine ⟨result, ?_, fun row => ?_⟩
    · simp only [hslice, Option.bind_eq_bind, Option.bind_some, hresult]
    rw [hposition row]
    refine exists_congr fun commit => and_congr_right fun _ => ?_
    have hid := (Hex.decode_lower hlower).mp hbytes
    exact ⟨fun h => h ▸ hid, fun h => encode_inj (h.symm.trans hid)⟩

theorem positions_lower (hrows : FinishedRows commits index)
    (hindexes : IndexesHistory commits index) {selected : List CommitId}
    (hlower : ∀ id ∈ selected, ∀ c ∈ id, c ∉ Hex.upperDigits) :
    (index.positions selected = some none ∧
        ∃ id ∈ selected, ∀ commit ∈ commits, Hex.encode commit.id ≠ id) ∨
      ∃ rows, index.positions selected = some (some rows) ∧
        Forall₂ (fun id row => ∃ commit, commits[row]? = some commit ∧
          id = Hex.encode commit.id) selected rows := by
  induction selected with
  | nil => exact Or.inr ⟨[], rfl, .nil⟩
  | cons id selected ih =>
    obtain ⟨result, hresult, hposition⟩ :=
      position_lower hrows hindexes (hlower id mem_cons_self)
    rw [HistoryIndex.positions, hresult]
    cases result with
    | none =>
      refine Or.inl ⟨rfl, id, mem_cons_self, fun commit hcommit heq => ?_⟩
      obtain ⟨row, hrow⟩ := mem_iff_getElem?.mp hcommit
      exact nomatch (hposition row).mpr ⟨commit, hrow, heq.symm⟩
    | some row =>
      have hfound := (hposition row).mp rfl
      rcases ih fun other hother => hlower other (mem_cons_of_mem _ hother) with
        ⟨hnone, other, hother, hmissing⟩ | ⟨rows, hrest, hall⟩
      · simp only [Option.bind_eq_bind, Option.bind_some, hnone]
        exact Or.inl ⟨trivial, other, mem_cons_of_mem _ hother, hmissing⟩
      · simp only [Option.bind_eq_bind, Option.bind_some, hrest]
        exact Or.inr ⟨row :: rows, rfl, .cons hfound hall⟩

variable {actualHead : CommitId}

theorem loops_agree (hrows : FinishedRows commits index) (hindexes : IndexesHistory commits index)
    (hpage : PageOf commits page) (hacyclic : Acyclic commits) {selected : List CommitId}
    {selectedRows : List ℕ} (hselected : ∀ (row : ℕ) (commit : Push), commits[row]? = some commit →
      (row ∈ selectedRows ↔ Hex.encode commit.id ∈ selected)) :
    ∀ {steps fuel row : ℕ} {id : Bytes} {orderedIds : List CommitId} {visited : List Bytes},
      At commits row id → Walked commits visited id →
      commits.length ≤ visited.length + steps → steps < fuel →
      ∃ verdict, index.squashRows selectedRows selected.length actualHead steps row orderedIds =
          some verdict ∧
        squashLoop page selected actualHead fuel (Hex.encode id) orderedIds (!orderedIds.isEmpty)
          false = some verdict := by
  intro steps
  induction steps with
  | zero =>
    intro fuel row id orderedIds visited _ hwalked hroom hfuel
    obtain ⟨fuel, rfl⟩ := exists_eq_succ_of_ne_zero (ne_of_gt hfuel)
    have hmissing : id ∉ commitIds commits := fun hmem => by
      have := hwalked.room hacyclic hmem
      omega
    exact ⟨none, rfl, by rw [squashLoop, hpage.outside hmissing]⟩
  | succ steps ih =>
    intro fuel row id orderedIds visited hat hwalked hroom hfuel
    obtain ⟨fuel, rfl⟩ := exists_eq_succ_of_ne_zero (by omega : fuel ≠ 0)
    rw [squashLoop, HistoryIndex.squashRows]
    cases hat with
    | beyond hrow hmissing =>
      rw [(hindexes.outside row hrow).1, hpage.outside hmissing]
      exact ⟨none, rfl, rfl⟩
    | @row commit hrow =>
      have hcommit := mem_of_getElem? hrow
      obtain ⟨ranks, hranks, hlength, hrank⟩ := hindexes.parents row commit hrow
      rw [hranks, hpage.soleParent hcommit]
      match hparents : commit.parents, ranks with
      | [], [] => exact ⟨none, rfl, rfl⟩
      | [], _ :: _ => rw [hparents] at hlength; cases hlength
      | [_], [] => rw [hparents] at hlength; cases hlength
      | [_], _ :: _ :: _ => rw [hparents] at hlength; cases hlength
      | _ :: _ :: _, [] => rw [hparents] at hlength; cases hlength
      | _ :: _ :: _, [_] => rw [hparents] at hlength; cases hlength
      | _ :: _ :: _, _ :: _ :: _ => exact ⟨none, rfl, rfl⟩
      | [parent], [rank] =>
        have hat : At commits rank parent := by
          obtain ⟨found, hfound, hplace⟩ := hrank 0 parent (by rw [hparents]; rfl)
          cases hfound
          rcases hplace with ⟨other, hother, rfl⟩ | ⟨rfl, hmissing⟩
          · exact .row hother
          · refine .beyond ?_ fun hmem => ?_
            · have := hrows.column.rows
              rwa [commitIds, length_map] at this
            · obtain ⟨other, hother, hid⟩ := mem_map.mp hmem
              exact hmissing other hother hid
        have hwalked' := hwalked.step hacyclic hcommit rfl parent
          (by rw [hparents]; exact mem_singleton_self _)
        have hroom' : commits.length ≤ (commit.id :: visited).length + steps := by
          rw [length_cons]
          omega
        have hparentId : index.parentCommitId row 0 = some (some (Hex.encode parent)) := by
          rw [HistoryIndex.parentCommitId, hindexes.parentIds row commit hrow 0, hparents]
          rfl
        have hcontains : selectedRows.contains row = selected.contains (Hex.encode commit.id) := by
          rw [Bool.eq_iff_iff, contains_iff_mem, contains_iff_mem]
          exact hselected row commit hrow
        simp only [Option.bind_eq_bind, Option.bind_some, hcontains, row_commitId hrows hrow,
          hparentId, Bool.false_eq_true, if_false]
        by_cases hchosen : selected.contains (Hex.encode commit.id)
        · simp only [hchosen, if_true]
          split
          · refine ⟨_, rfl, ?_⟩
            cases orderedIds <;> rfl
          · have hnext := @ih fuel rank parent (orderedIds ++ [Hex.encode commit.id]) _ hat hwalked'
              hroom' (by omega)
            rwa [show (!(orderedIds ++ [Hex.encode commit.id]).isEmpty) = true by simp] at hnext
        · simp only [hchosen, if_false, Bool.false_eq_true]
          cases orderedIds with
          | nil => exact ih hat hwalked' hroom' (by omega)
          | cons first orderedIds =>
            exact ⟨none, rfl, loop_behind_gap hpage hacyclic hwalked'
              (by rw [length_cons]; omega)⟩

def RowOf (commits : List Push) (id : CommitId) (row : ℕ) : Prop :=
  ∃ commit, commits[row]? = some commit ∧ id = Hex.encode commit.id

theorem rowOf_biUnique (hdistinct : (commitIds commits).Nodup) :
    Relator.BiUnique (RowOf commits) := by
  constructor
  · rintro id id' row ⟨commit, hcommit, rfl⟩ ⟨commit', hcommit', rfl⟩
    rw [Option.some.inj (hcommit.symm.trans hcommit')]
  · rintro id row row' ⟨commit, hcommit, rfl⟩ ⟨commit', hcommit', hid⟩
    have hids : ∀ {row : ℕ} {commit : Push}, commits[row]? = some commit →
        (commitIds commits)[row]? = some commit.id := fun h => by
      rw [commitIds, getElem?_map, h]
      rfl
    obtain ⟨hlt, -⟩ := List.getElem?_eq_some_iff.mp (hids hcommit)
    refine (getElem?_inj hlt hdistinct).mp ?_
    rw [hids hcommit, hids hcommit', encode_inj hid]

theorem forall₂_right {α β : Type} {R : α → β → Prop} {xs : List α} {ys : List β}
    (h : Forall₂ R xs ys) {x : α} (hx : x ∈ xs) : ∃ y ∈ ys, R x y := by
  induction h with
  | nil => cases hx
  | cons hR _ ih =>
    rcases mem_cons.mp hx with rfl | hx
    · exact ⟨_, mem_cons_self, hR⟩
    · obtain ⟨y, hy, hR⟩ := ih hx
      exact ⟨y, mem_cons_of_mem _ hy, hR⟩

theorem dedup_length_iff {rows : List ℕ} : rows.dedup.length = rows.length ↔ rows.Nodup :=
  ⟨fun h => dedup_eq_self.mp ((dedup_sublist rows).eq_of_length h),
    fun h => by rw [h.dedup]⟩

theorem indexed_eligibility_agrees (hindex : BuiltIndex commits index)
    (hdistinct : (commits.map Push.id).Nodup) (hacyclic : Acyclic commits)
    (hpage : page.Perm (commits.map pageCommit)) {selected : List CommitId}
    (hlower : ∀ id ∈ actualHead :: selected, ∀ c ∈ id, c ∉ Hex.upperDigits) :
    ∃ verdict, index.squashEligibilityIndexed selected actualHead = some verdict ∧
      ∀ fuel, commits.length < fuel → squashVerdict fuel page selected actualHead = some verdict ∧
          squashEligibility fuel page selected actualHead = verdict := by
  have hrows := hindex.rows
  have hindexes := hindex.indexes hdistinct
  have hpage' : PageOf commits page := ⟨hpage, hdistinct⟩
  suffices hverdict : ∃ verdict, index.squashEligibilityIndexed selected actualHead =
      some verdict ∧ ∀ fuel, commits.length < fuel →
        squashVerdict fuel page selected actualHead = some verdict by
    obtain ⟨verdict, hsome, hall⟩ := hverdict
    exact ⟨verdict, hsome, fun fuel hfuel =>
      ⟨hall fuel hfuel, squashVerdict_eligibility (hall fuel hfuel)⟩⟩
  simp only [HistoryIndex.squashEligibilityIndexed, squashVerdict]
  split
  · exact ⟨none, rfl, fun _ _ => rfl⟩
  rcases positions_lower hrows hindexes fun id hid => hlower id (mem_cons_of_mem _ hid) with
    ⟨hnone, id, hid, hmissing⟩ | ⟨rows, hpositions, hall⟩
  · rw [hnone]
    refine ⟨none, rfl, fun fuel _ => ?_⟩
    split
    · rfl
    · rw [if_pos]
      exact any_eq_true.mpr ⟨id, hid, by rw [hpage'.missing hmissing]; rfl⟩
  have hunique := rowOf_biUnique hdistinct
  have hknown : (selected.any fun id => (commitById page id).isNone) = false := by
    refine any_eq_false.mpr fun id hid => ?_
    obtain ⟨row, -, commit, hrow, rfl⟩ := forall₂_right hall hid
    rw [hpage'.lookup (mem_of_getElem? hrow)]
    exact Bool.false_ne_true
  have hnodup : rows.dedup.length ≠ selected.length ↔ ¬selected.Nodup := by
    rw [hall.length_eq, ne_eq, dedup_length_iff]
    exact not_congr (rel_nodup hunique hall).symm
  rw [hpositions]
  simp only [Option.bind_eq_bind, Option.bind_some, hknown, hnodup, Bool.false_eq_true, if_false]
  split
  · exact ⟨none, rfl, fun _ _ => rfl⟩
  obtain ⟨result, hresult, hposition⟩ :=
    position_lower hrows hindexes (hlower actualHead mem_cons_self)
  rw [hresult, Option.bind_some]
  cases result with
  | none =>
    refine ⟨none, rfl, fun fuel hfuel => ?_⟩
    obtain ⟨fuel, rfl⟩ := exists_eq_succ_of_ne_zero (ne_of_gt (zero_lt_of_lt hfuel))
    have hmissing : commitById page actualHead = none := hpage'.missing fun commit hcommit heq => by
      obtain ⟨row, hrow⟩ := mem_iff_getElem?.mp hcommit
      exact nomatch (hposition row).mpr ⟨commit, hrow, heq.symm⟩
    rw [squashLoop, soleParent, hmissing]
    rfl
  | some row =>
    obtain ⟨commit, hrow, rfl⟩ := (hposition row).mp rfl
    have hselected : ∀ (row : ℕ) (commit : Push), commits[row]? = some commit →
        (row ∈ rows ↔ Hex.encode commit.id ∈ selected) := fun row commit hrow =>
      (rel_mem hunique ⟨commit, hrow, rfl⟩ hall).symm
    have hstart : ∀ fuel, commits.length < fuel → ∃ verdict,
        index.squashRows rows selected.length (Hex.encode commit.id) commits.length row [] =
            some verdict ∧
          squashLoop page selected (Hex.encode commit.id) fuel (Hex.encode commit.id) [] false
            false = some verdict := fun fuel hfuel =>
      loops_agree hrows hindexes hpage' hacyclic hselected (At.row hrow) (Walked.start commit.id)
        (by simp) hfuel
    obtain ⟨verdict, hverdict, -⟩ := hstart (commits.length + 1) (lt_succ_self _)
    refine ⟨verdict, by rw [hrows.len]; exact hverdict, fun fuel hfuel => ?_⟩
    obtain ⟨verdict', hverdict', hloop⟩ := hstart fuel hfuel
    obtain rfl := Option.some.inj (hverdict.symm.trans hverdict')
    exact hloop

end

def chainOfTwo : List Push :=
  [⟨replicate 20 0xab, [replicate 20 0xaa], false⟩,
    ⟨replicate 20 0xaa, [replicate 20 0x01], false⟩]

def chainIds : List CommitId := chainOfTwo.map fun commit => Hex.encode commit.id

theorem chainOfTwo_acyclic : Acyclic chainOfTwo :=
  acyclic_of_height (fun id => (id.headD 0).toNat) (by decide)

theorem verdict_on_chain : ∃ index, BuiltIndex chainOfTwo index ∧ ∃ verdict,
    index.squashEligibilityIndexed chainIds (chainIds.headD []) = some verdict ∧
      squashVerdict 3 (chainOfTwo.map pageCommit) chainIds (chainIds.headD []) = some verdict := by
  obtain ⟨index, hbuilt⟩ : ∃ index, buildIndex 20 chainOfTwo (fun _ => false) = some index :=
    buildIndex_never rfl (by decide)
  have hindex : BuiltIndex chainOfTwo index := ⟨20, _, hbuilt⟩
  have hlower : ((chainIds.headD [] :: chainIds).all fun id =>
      id.all fun c => decide (c ∉ Hex.upperDigits)) = true := by decide
  obtain ⟨verdict, hverdict, hpage⟩ := indexed_eligibility_agrees hindex (by decide)
    chainOfTwo_acyclic (Perm.refl (chainOfTwo.map pageCommit)) fun id hid c hc =>
      of_decide_eq_true (all_eq_true.mp (all_eq_true.mp hlower id hid) c hc)
  exact ⟨index, hindex, verdict, hverdict, (hpage 3 (by decide)).1⟩

set_option maxRecDepth 20000 in
theorem upper_case_head_differs : Acyclic chainOfTwo ∧ (chainOfTwo.map Push.id).Nodup ∧
    ((buildIndex 20 chainOfTwo fun _ => false).map fun index =>
        index.squashEligibilityIndexed chainIds ((chainIds.headD []).map Char.toUpper)) =
      some (some (some ⟨(chainIds.headD []).map Char.toUpper, chainIds.headD [],
        chainIds.getLastD [], Hex.encode (replicate 20 1), 2, chainIds⟩)) ∧
    squashVerdict 3 (chainOfTwo.map pageCommit) chainIds
      ((chainIds.headD []).map Char.toUpper) = some none := by
  refine ⟨chainOfTwo_acyclic, by decide, ?_, ?_⟩
  · rfl
  · rfl

end GitComet.History
