import GitComet.Merge.TrimKeeps

namespace GitComet.Merge
open LinkedArena Text Columns Option

inductive InsertedList : ManualAlignmentList → Prop
  | nil : InsertedList []
  | insert {entries : ManualAlignmentList} (h : InsertedList entries)
      (base ours theirs : LineRange) :
      InsertedList (entries.insert (.new base ours theirs)).1

theorem insert_ordered {entries : ManualAlignmentList} {entry : ManualAlignment}
    (h : ∀ e ∈ entries, e.Ordered) (hentry : entry.Ordered) :
    ∀ e ∈ (entries.insert entry).1, e.Ordered := by
  unfold ManualAlignmentList.insert
  split
  · exact h
  · simp only
    split
    · exact h
    · intro e he
      simp only [List.mem_append, List.mem_cons] at he
      rcases he with he | rfl | he
      · exact h e ((List.takeWhile_prefix _).subset he)
      · exact hentry
      · exact h e (List.mem_of_mem_drop he)

theorem InsertedList.ordered {entries : ManualAlignmentList} (h : InsertedList entries) :
    ∀ e ∈ entries, e.Ordered := by
  induction h with
  | nil => simp
  | insert _ base ours theirs ih => exact insert_ordered ih (new_ordered base ours theirs)

def contributorRows (input : PlanInput) (list : RowList) : Option (List AlignedRow) := do
  let chunks ← input.chunks .b .c
  let list ← integrateBc input.texts chunks list
  (list.recomputeRows input.texts).intoRows

def firstPassKeeps (input : PlanInput) : Bool :=
  (baseAlignedRows input).any (passMeets moveKeeps input.texts input.barriers)

def secondPassLands (input : PlanInput) : Bool :=
  ((baselineList input).bind (contributorRows input)).any
    (passMeets moveLands input.texts input.barriers)

def candidateAccepted (input : PlanInput) : Bool :=
  (baselineList input).any fun list =>
    (list.intoRows).any fun baseline =>
      (candidateRows input list).any (acceptCandidate input baseline)

def linesKept (input : PlanInput) (alignContributors : Bool) : Bool :=
  !input.threeWay || (firstPassKeeps input && (!alignContributors || secondPassLands input)) ||
    (alignContributors && candidateAccepted input)

theorem candidateRows_eq (input : PlanInput) (list : RowList) :
    candidateRows input list =
      (contributorRows input list).bind (trimRows input.texts input.barriers) := by
  simp only [candidateRows, contributorRows, bind_eq_bind, bind_assoc]

section
variable {input : PlanInput} {list : RowList}

structure FirstPass (input : PlanInput) (list : RowList) (rows first : List AlignedRow)
    (ids : List ℕ) : Prop where
  aligned : baseAlignedRows input = some rows
  complete : CompleteRows input.texts rows
  trimmed : trimRows input.texts input.barriers rows = some first
  holds : Holds list ids
  rows : rowsAt list ids = first

theorem firstPass_keeps {rows first : List AlignedRow} {ids : List ℕ}
    (h : FirstPass input list rows first ids) :
    firstPassKeeps input ↔ CompleteRows input.texts first := by
  rw [firstPassKeeps, h.aligned, any_some]
  exact trimRows_keeps_iff h.complete h.trimmed

section
variable (hordered : ∀ entry ∈ input.entries, entry.Ordered)
include hordered

theorem baseAligned_complete :
    ∃ rows, baseAlignedRows input = some rows ∧ CompleteRows input.texts rows := by
  obtain ⟨cs, hcs, hab⟩ := chunks_spec input hordered .a .b
  obtain ⟨cs', hcs', hac⟩ := chunks_spec input hordered .a .c
  obtain ⟨out, hbase⟩ := baseAlignedRows_spec hcs hcs' hab hac
  exact ⟨_, hbase.run, hbase.complete⟩

theorem baselineList_pass (h : baselineList input = some list) :
    ∃ rows first ids, FirstPass input list rows first ids := by
  obtain ⟨rows, hrows, hcomplete⟩ := baseAligned_complete hordered
  have hrun := h
  obtain ⟨rows', hrows', h⟩ := bind_eq_some_iff.mp h
  obtain rfl := some.inj (hrows.symm.trans hrows')
  obtain ⟨first, hfirst, -⟩ := bind_eq_some_iff.mp h
  obtain ⟨list', ids, hlist, hh, hids⟩ := baselineList_spec hrows hfirst
    (trimRows_tidy hfirst).computed
  obtain rfl := some.inj (hlist.symm.trans hrun)
  exact ⟨rows, first, ids, hrows, hcomplete, hfirst, hh, hids⟩

theorem firstPass_runs
    (h : firstPassKeeps input) : ∃ list, baselineList input = some list := by
  obtain ⟨rows, hrows, hcomplete⟩ := baseAligned_complete hordered
  rw [firstPassKeeps, hrows, any_some] at h
  obtain ⟨first, hfirst⟩ := passMeets_runs h
  obtain ⟨list, ids, hlist, -⟩ := baselineList_spec hrows hfirst (trimRows_tidy hfirst).computed
  exact ⟨list, hlist⟩

end

theorem secondPass_of_candidate {candidate : List AlignedRow}
    (hlist : baselineList input = some list) (h : candidateRows input list = some candidate) :
    secondPassLands input := by
  rw [candidateRows_eq] at h
  obtain ⟨rows, hrows, htrim⟩ := bind_eq_some_iff.mp h
  rw [secondPassLands, hlist, bind_some, hrows, any_some]
  exact trimRows_lands htrim

theorem candidate_of_secondPass (hlist : baselineList input = some list)
    (h : secondPassLands input) :
    ∃ candidate, candidateRows input list = some candidate := by
  rw [secondPassLands, hlist, bind_some, any_eq_true] at h
  obtain ⟨rows, hrows, hlands⟩ := h
  obtain ⟨candidate, htrim⟩ := passMeets_runs hlands
  exact ⟨candidate, by rw [candidateRows_eq, hrows, bind_some, htrim]⟩

theorem candidateAccepted_iff : candidateAccepted input ↔
    ∃ list baseline candidate, baselineList input = some list ∧ list.intoRows = some baseline ∧
      candidateRows input list = some candidate ∧
      acceptCandidate input baseline candidate := by
  simp only [candidateAccepted, any_eq_true]
  constructor
  · rintro ⟨list, hlist, baseline, hbaseline, candidate, hcandidate, haccept⟩
    exact ⟨list, baseline, candidate, hlist, hbaseline, hcandidate, haccept⟩
  · rintro ⟨list, baseline, candidate, hlist, hbaseline, hcandidate, haccept⟩
    exact ⟨list, hlist, baseline, hbaseline, candidate, hcandidate, haccept⟩

def KeepsLines (input : PlanInput) (alignContributors : Bool) : Prop :=
  ∃ rows, planRows input alignContributors = some rows ∧ CompleteRows input.texts rows

theorem keepsLines_plain (hordered : ∀ entry ∈ input.entries, entry.Ordered)
    (hway : input.threeWay) : KeepsLines input false ↔ firstPassKeeps input := by
  simp only [KeepsLines, planRows, hway, if_true, Bool.false_eq_true, if_false]
  constructor
  · rintro ⟨rows, hrun, hcomplete⟩
    obtain ⟨list, hlist, hrows⟩ := bind_eq_some_iff.mp hrun
    obtain ⟨_, first, ids, hpass⟩ := baselineList_pass hordered hlist
    rw [holds_intoRows hpass.holds, hpass.rows] at hrows
    exact (firstPass_keeps hpass).mpr (some.inj hrows ▸ hcomplete)
  · intro h
    obtain ⟨list, hlist⟩ := firstPass_runs hordered h
    obtain ⟨_, first, ids, hpass⟩ := baselineList_pass hordered hlist
    refine ⟨first, ?_, (firstPass_keeps hpass).mp h⟩
    rw [hlist, ← hpass.rows]
    exact holds_intoRows hpass.holds

theorem keepsLines_aligned (hordered : ∀ entry ∈ input.entries, entry.Ordered)
    (hway : input.threeWay) : KeepsLines input true ↔
      (firstPassKeeps input && secondPassLands input) ∨ candidateAccepted input := by
  simp only [KeepsLines, planRows, hway, if_true]
  constructor
  · rintro ⟨rows, hrun, hcomplete⟩
    obtain ⟨list, hlist, hrun⟩ := bind_eq_some_iff.mp hrun
    obtain ⟨baseline, hbaseline, hrun⟩ := bind_eq_some_iff.mp hrun
    obtain ⟨candidate, hcandidate, hrun⟩ := bind_eq_some_iff.mp hrun
    rw [Bool.and_eq_true]
    split at hrun
    · rename_i haccept
      exact Or.inr (candidateAccepted_iff.mpr
        ⟨list, baseline, candidate, hlist, hbaseline, hcandidate, haccept⟩)
    · obtain ⟨_, first, ids, hpass⟩ := baselineList_pass hordered hlist
      rw [holds_intoRows hpass.holds, hpass.rows] at hbaseline
      cases hbaseline
      cases hrun
      exact Or.inl ⟨(firstPass_keeps hpass).mpr hcomplete, secondPass_of_candidate hlist hcandidate⟩
  · rintro (h | h)
    · rw [Bool.and_eq_true] at h
      obtain ⟨list, hlist⟩ := firstPass_runs hordered h.1
      obtain ⟨_, first, ids, hpass⟩ := baselineList_pass hordered hlist
      obtain ⟨candidate, hcandidate⟩ := candidate_of_secondPass hlist h.2
      have hbaseline := holds_intoRows hpass.holds
      rw [hpass.rows] at hbaseline
      refine ⟨if acceptCandidate input first candidate then candidate else first, ?_, ?_⟩
      · simp only [hlist, bind_eq_bind, bind_some, alignedRows, hbaseline, hcandidate]
      · split
        · rename_i haccept
          exact complete_of_accept haccept
        · exact (firstPass_keeps hpass).mp h.1
    · obtain ⟨list, baseline, candidate, hlist, hbaseline, hcandidate, haccept⟩ :=
        candidateAccepted_iff.mp h
      refine ⟨candidate, ?_, complete_of_accept haccept⟩
      simp only [hlist, bind_eq_bind, bind_some, alignedRows, hbaseline, hcandidate,
        haccept, if_true]

variable (input) in
theorem keepsLines_iff (hordered : ∀ entry ∈ input.entries, entry.Ordered)
    (hc : input.threeWay = false → input.texts.c = []) (alignContributors : Bool) :
    KeepsLines input alignContributors ↔ linesKept input alignContributors := by
  cases hway : input.threeWay with
  | false =>
    obtain ⟨rows, hrows, hok⟩ := planRows_twoInput_ok hordered hway (hc hway) alignContributors
    simp only [linesKept, hway, Bool.not_false, Bool.true_or, iff_true]
    exact ⟨rows, hrows, hok.complete⟩
  | true =>
    cases alignContributors with
    | false =>
      rw [keepsLines_plain hordered hway]
      simp [linesKept, hway]
    | true =>
      rw [keepsLines_aligned hordered hway]
      simp [linesKept, hway]

end

def planInput (base : Option (List Char)) (ours theirs : List Char) (options : MergeOptions)
    (alignments : ManualAlignmentList) : PlanInput :=
  ⟨(planTexts base ours theirs).sources, base.isSome, options.diffAlgorithm, alignments⟩

end GitComet.Merge
