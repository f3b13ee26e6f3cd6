import Mathlib.Data.List.Forall2
import GitComet.Unified.Lines

namespace GitComet.Unified
open Text

inductive Marker where
  | context
  | remove
  | add
  deriving DecidableEq

def Marker.char : Marker → Char
  | .context => ' '
  | .remove => '-'
  | .add => '+'

def Marker.kind : Marker → DiffLineKind
  | .context => .context
  | .remove => .remove
  | .add => .add

def Marker.onOld : Marker → Bool
  | .add => false
  | _ => true

def Marker.onNew : Marker → Bool
  | .remove => false
  | _ => true

structure BodyLine where
  marker : Marker
  content : List Char
  terminated : Bool
  deriving DecidableEq

def BodyLine.raw (line : BodyLine) : List Char :=
  line.content ++ if line.terminated then ['\n'] else []

structure Hunk where
  oldRange : List Char
  newRange : List Char
  heading : List Char
  body : List BodyLine
  deriving DecidableEq

def oldSide (body : List BodyLine) : List BodyLine := body.filter fun line => line.marker.onOld
def newSide (body : List BodyLine) : List BodyLine := body.filter fun line => line.marker.onNew

structure FileSection where
  diffGit : List Char
  headers : List (List Char)
  hunks : List (List (List Char) × Hunk)
  tail : List (List Char)
  deriving DecidableEq

def FileSection.oldLines (file : FileSection) : List (List Char) :=
  file.hunks.flatMap (fun entry => entry.1 ++ (oldSide entry.2.body).map BodyLine.raw) ++ file.tail

def FileSection.newLines (file : FileSection) : List (List Char) :=
  file.hunks.flatMap (fun entry => entry.1 ++ (newSide entry.2.body).map BodyLine.raw) ++ file.tail

def FileSection.oldText (file : FileSection) : List Char := file.oldLines.flatten
def FileSection.newText (file : FileSection) : List Char := file.newLines.flatten

def noNewlineLine : List Char := "\\ No newline at end of file".toList

def BodyLine.rendered (line : BodyLine) : List (List Char) :=
  (line.marker.char :: line.content) :: if line.terminated then [] else [noNewlineLine]

def Hunk.header (hunk : Hunk) : List Char := headerLine hunk.oldRange hunk.newRange hunk.heading

def Hunk.rendered (hunk : Hunk) : List (List Char) :=
  hunk.header :: hunk.body.flatMap BodyLine.rendered

def FileSection.rendered (file : FileSection) : List (List Char) :=
  file.diffGit :: file.headers ++ file.hunks.flatMap fun entry => entry.2.rendered

def diffText (files : List FileSection) : List Char :=
  textOf (files.flatMap FileSection.rendered)

def rangeStart (position count : ℕ) : ℕ := if count = 0 then position else position + 1

def WellPlaced (old new : ℕ) : List (List (List Char) × Hunk) → Prop
  | [] => True
  | (skipped, hunk) :: rest =>
    let oldCount := (oldSide hunk.body).length
    let newCount := (newSide hunk.body).length
    RangeText (rangeStart (old + skipped.length) oldCount) oldCount hunk.oldRange ∧
      RangeText (rangeStart (new + skipped.length) newCount) newCount hunk.newRange ∧
      WellPlaced (old + skipped.length + oldCount) (new + skipped.length + newCount) rest

structure FileSection.WellFormed (file : FileSection) : Prop where
  diffGit : startsWith file.diffGit "diff --git ".toList = true
  headers : ∀ line ∈ file.headers, ¬ startsWith line "diff --git ".toList ∧
    ¬ startsWith line "@@".toList
  unbroken : ∀ line ∈ file.rendered, '\n' ∉ line
  bodies : ∀ entry ∈ file.hunks, entry.2.body ≠ []
  placed : WellPlaced 0 0 file.hunks
  old : splitInclusive file.oldText = file.oldLines
  new : splitInclusive file.newText = file.newLines

structure TrueLine where
  kind : DiffLineKind
  oldLine : Option ℕ
  newLine : Option ℕ
  deriving DecidableEq

def after (position : ℕ) (here : Bool) : ℕ := if here then position + 1 else position
def numberOf (position : ℕ) (here : Bool) : Option ℕ := if here then some (position + 1) else none

def expectedBody (old new : ℕ) : List BodyLine → List (Option TrueLine)
  | [] => []
  | line :: body =>
    some ⟨line.marker.kind, numberOf old line.marker.onOld, numberOf new line.marker.onNew⟩ ::
      (if line.terminated then [] else [none]) ++
      expectedBody (after old line.marker.onOld) (after new line.marker.onNew) body

def expectedHunks (old new : ℕ) : List (List (List Char) × Hunk) → List (Option TrueLine)
  | [] => []
  | (skipped, hunk) :: rest =>
    none :: expectedBody (old + skipped.length) (new + skipped.length) hunk.body ++
      expectedHunks (old + skipped.length + (oldSide hunk.body).length)
        (new + skipped.length + (newSide hunk.body).length) rest

def FileSection.expected (file : FileSection) : List (Option TrueLine) :=
  none :: file.headers.map (fun _ => none) ++ expectedHunks 0 0 file.hunks

def KindRight (line : DiffLine) (expected : Option TrueLine) : Prop :=
  ∀ t, expected = some t → line.kind = t.kind

def NumbersRight (line : AnnotatedDiffLine) (expected : Option TrueLine) : Prop :=
  ∀ t, expected = some t →
    line.oldLine.map UInt32.toNat = t.oldLine ∧ line.newLine.map UInt32.toNat = t.newLine

structure ReadCorrectly (files : List FileSection) : Prop where
  kinds : List.Forall₂ KindRight (fromUnified (diffText files))
    (files.flatMap FileSection.expected)
  numbers : List.Forall₂ NumbersRight (annotateUnified (fromUnified (diffText files)))
    (files.flatMap FileSection.expected)

def BodyLine.ImitatesHeader (line : BodyLine) : Prop :=
  (line.marker = .remove ∧ startsWith line.content "-- ".toList = true) ∨
    (line.marker = .add ∧ startsWith line.content "++ ".toList = true)

def ReadableBody (old new : ℕ) : List BodyLine → Prop
  | [] => True
  | line :: body => ¬ line.ImitatesHeader ∧
    (line.marker.onOld = true → old + 1 ≤ u32Max) ∧
    (line.marker.onNew = true → new + 1 ≤ u32Max) ∧
    (line.terminated = false → body = []) ∧
    ReadableBody (after old line.marker.onOld) (after new line.marker.onNew) body

def ReadableHunks (old new : ℕ) : List (List (List Char) × Hunk) → Prop
  | [] => True
  | (skipped, hunk) :: rest =>
    rangeStart (old + skipped.length) (oldSide hunk.body).length ≤ u32Max ∧
      rangeStart (new + skipped.length) (newSide hunk.body).length ≤ u32Max ∧
      ReadableBody (old + skipped.length) (new + skipped.length) hunk.body ∧
      ReadableHunks (old + skipped.length + (oldSide hunk.body).length)
        (new + skipped.length + (newSide hunk.body).length) rest

instance (line : BodyLine) : Decidable line.ImitatesHeader := inferInstanceAs (Decidable (_ ∨ _))

instance decidableReadableBody (old new : ℕ) :
    (body : List BodyLine) → Decidable (ReadableBody old new body)
  | [] => .isTrue trivial
  | line :: body =>
    have := decidableReadableBody (after old line.marker.onOld) (after new line.marker.onNew) body
    inferInstanceAs (Decidable (_ ∧ _ ∧ _ ∧ _ ∧ _))

instance decidableReadableHunks (old new : ℕ) :
    (hunks : List (List (List Char) × Hunk)) → Decidable (ReadableHunks old new hunks)
  | [] => .isTrue trivial
  | (skipped, hunk) :: rest =>
    have := decidableReadableHunks (old + skipped.length + (oldSide hunk.body).length)
      (new + skipped.length + (newSide hunk.body).length) rest
    inferInstanceAs (Decidable (_ ∧ _ ∧ _ ∧ _))

def FileSection.Readable (file : FileSection) : Prop := ReadableHunks 0 0 file.hunks

instance (file : FileSection) : Decidable file.Readable := decidableReadableHunks 0 0 file.hunks

section

def sideLines (here : Bool) (line : BodyLine) : List (List Char) := if here then [line.raw] else []

theorem oldSide_cons (line : BodyLine) (body : List BodyLine) :
    (oldSide (line :: body)).map BodyLine.raw =
      sideLines line.marker.onOld line ++ (oldSide body).map BodyLine.raw := by
  cases h : line.marker.onOld <;> simp [oldSide, sideLines, h]

end

end GitComet.Unified
