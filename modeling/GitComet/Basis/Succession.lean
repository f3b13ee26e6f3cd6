import Mathlib.Data.List.Basic

namespace GitComet.Succession
open List

def Reaches {α : Type*} (skip mark : α → Prop) (next : List α → Prop) (xs : List α) : Prop :=
  ∃ front x rest, xs = front ++ x :: rest ∧ (∀ y ∈ front, skip y) ∧ mark x ∧ next rest

section

variable {α : Type*} {skip mark other : α → Prop} {next : List α → Prop} {x : α} {xs : List α}

@[simp] theorem reaches_nil : ¬Reaches skip mark next [] := by
  rintro ⟨front, x, rest, h, -⟩
  simp at h

theorem reaches_cons :
    Reaches skip mark next (x :: xs) ↔ mark x ∧ next xs ∨ skip x ∧ Reaches skip mark next xs := by
  constructor
  · rintro ⟨front, y, rest, h, hskip, hmark, hnext⟩
    cases front with
    | nil =>
      obtain ⟨rfl, rfl⟩ := cons.inj h
      exact .inl ⟨hmark, hnext⟩
    | cons z front =>
      obtain ⟨rfl, rfl⟩ := cons.inj h
      obtain ⟨hx, hfront⟩ := forall_mem_cons.mp hskip
      exact .inr ⟨hx, front, y, rest, rfl, hfront, hmark, hnext⟩
  · rintro (⟨hmark, hnext⟩ | ⟨hx, front, y, rest, rfl, hfront, hmark, hnext⟩)
    · exact ⟨[], x, xs, rfl, by simp, hmark, hnext⟩
    · exact ⟨x :: front, y, rest, rfl, forall_mem_cons.mpr ⟨hx, hfront⟩, hmark, hnext⟩

theorem reaches_past {far : List α → Prop} (hmark : ∀ y, mark y → skip y)
    (h : Reaches skip mark (Reaches skip other far) xs) : Reaches skip other far xs := by
  obtain ⟨front, y, rest, rfl, hfront, hy, behind, z, after, rfl, hbehind, hz, hafter⟩ := h
  refine ⟨front ++ y :: behind, z, after, by simp, ?_, hz, hafter⟩
  intro w hw
  rcases mem_append.mp hw with hw | hw
  · exact hfront w hw
  · rcases mem_cons.mp hw with rfl | hw
    · exact hmark w hy
    · exact hbehind w hw

end

end GitComet.Succession
