import GitComet.Kit.RopeEdits
import Mathlib.Data.List.Chain

namespace GitComet.Kit
open Option Nat

open Text SumTree

def Filled (a b : List Char) : Prop := maxChunkBytes / 2 ≤ byteLen a + byteLen b

instance (a b : List Char) : Decidable (Filled a b) := inferInstanceAs (Decidable (_ ≤ _))

def Dense (chunks : List (List Char)) : Prop := chunks.IsChain Filled

def Joins (before behind : List (List Char)) : Prop :=
  ∀ a ∈ before.getLast?, ∀ b ∈ behind.head?, Filled a b

section
variable {before behind chunks : List (List Char)}

theorem dense_append : Dense (before ++ behind) ↔ Dense before ∧ Dense behind ∧
    Joins before behind := List.isChain_append

theorem dense_count (h : Dense chunks) :
    chunks.length ≤ 1 + 4 * byteLen chunks.flatten / maxChunkBytes := by
  have hcount : ∀ {n : ℕ} {chunks : List (List Char)}, chunks.length ≤ n → Dense chunks →
      128 * chunks.length ≤ 128 + byteLen chunks.flatten := by
    intro n
    induction n using Nat.strong_induction_on with
    | _ n ih =>
      intro chunks hn h
      match chunks, h with
      | [], _ => simp
      | [chunk], _ => simp
      | a :: b :: rest, h =>
        obtain ⟨hab, hrest⟩ := List.isChain_cons_cons.mp h
        have hshort := ih rest.length (by simp only [List.length_cons] at hn; omega)
          (le_refl _) (List.IsChain.tail hrest)
        unfold Filled maxChunkBytes at hab
        simp only [List.length_cons, List.flatten_cons, byteLen_append]
        omega
  have hall := hcount (le_refl _) h
  unfold maxChunkBytes
  omega

end

variable {text : List Char}

section
variable {target : ℕ}

theorem upTo_reach (h : Plain.after text target ≠ []) :
    target < byteLen (Plain.upTo text target) + 4 ∧ target < byteLen text := by
  obtain ⟨c, back, hback⟩ := List.exists_cons_of_ne_nil h
  have htext := upTo_after text target
  rw [hback] at htext
  have hnext := upTo_next htext.symm
  have hfour := c.utf8Size_le_four
  have hlen := congrArg byteLen htext
  rw [byteLen_append, byteLen_cons] at hlen
  omega

theorem splitPieces_dense (htarget : maxChunkBytes / 2 < target) (rest : List Char) :
    ∀ pieces, splitPieces target rest = some pieces → Dense pieces ∧
      ∀ first ∈ pieces.head?, first = rest ∨ target < byteLen first + 4 := by
  unfold maxChunkBytes at htarget
  induction hn : rest.length using Nat.strong_induction_on generalizing rest with
  | _ n ih =>
    intro pieces hpieces
    by_cases hrest : rest = []
    · rw [splitPieces, if_pos hrest] at hpieces
      cases hpieces
      exact ⟨.nil, fun first hfirst => by cases hfirst⟩
    have hfour : byteLen rest ≤ target ∨ 4 ≤ target := .inr (by omega)
    rw [splitPieces_step hrest hfour] at hpieces
    obtain ⟨later, hlater, rfl⟩ := map_eq_some_iff.mp hpieces
    have hshort := after_shorter (upTo_ne_nil hrest hfour)
    obtain ⟨hdense, hhead⟩ := ih _ (by omega) (Plain.after rest target) rfl later hlater
    have hcut := upTo_after rest target
    have hlen := congrArg byteLen hcut
    rw [byteLen_append] at hlen
    refine ⟨List.isChain_cons.mpr ⟨fun second hsecond => ?_, hdense⟩, fun first hfirst => ?_⟩
    · have hne : Plain.after rest target ≠ [] := by
        intro hnil
        rw [hnil, splitPieces, if_pos rfl] at hlater
        cases hlater
        cases hsecond
      have hreach := upTo_reach hne
      unfold Filled maxChunkBytes
      rcases hhead second hsecond with rfl | hlong
      · omega
      · omega
    · cases hfirst
      by_cases hnil : Plain.after rest target = []
      · rw [hnil, List.append_nil] at hcut
        exact .inl hcut
      · exact .inr (upTo_reach hnil).1

theorem splitIntoChunks_single (htext : text ≠ [])
    (h : byteLen text ≤ maxChunkBytes) : splitIntoChunks text = some [text] := by
  have hpos := byteLen_pos.mpr htext
  have hone : max (divCeil (byteLen text) maxChunkBytes) 1 = 1 := by
    have := divCeil_le (n := byteLen text) (d := maxChunkBytes) (k := 1) (by decide) (by omega)
    omega
  have htarget : max (divCeil (byteLen text) 1) 1 = byteLen text := by
    simp [divCeil]
    omega
  have hcut := upTo_after text (byteLen text)
  have hall : Plain.upTo text (byteLen text) = text := WeightedPrefix.within_all _ (le_refl _)
  rw [hall] at hcut
  simp only [splitIntoChunks, hone, htarget]
  rw [splitPieces_step htext (.inl (le_refl _)), hall, List.append_right_eq_self.mp hcut,
    splitPieces, if_pos rfl]
  rfl

theorem splitIntoChunks_dense {pieces : List (List Char)}
    (h : splitIntoChunks text = some pieces) : Dense pieces := by
  by_cases htext : text = []
  · rw [htext, splitIntoChunks, splitPieces, if_pos rfl] at h
    cases h
    exact .nil
  by_cases hlong : byteLen text ≤ maxChunkBytes
  · rw [splitIntoChunks_single htext hlong] at h
    cases h
    exact .singleton _
  · refine (splitPieces_dense ?_ text pieces h).1
    have hcover := le_mul_divCeil (byteLen text) (d := maxChunkBytes) (by decide)
    have hfew := mul_divCeil_lt (byteLen text) (d := maxChunkBytes) (by decide)
    unfold maxChunkBytes at *
    generalize hcount : max (divCeil (byteLen text) 512) 1 = count
    have hshare := le_mul_divCeil (byteLen text) (d := count) (by omega)
    by_contra hsmall
    have hle : count * divCeil (byteLen text) count ≤ count * 256 :=
      mul_le_mul_left _ (by omega)
    omega

end

def leftOver (trailing chunk : List Char) : List Char :=
  Plain.after chunk (chunkTopUpLimit - byteLen trailing)

structure Seam where
  before : List (List Char)
  text : List Char
  behind : List (List Char)
  deriving DecidableEq

namespace Rope

def seam (rope : Rope) (range : Range) (insert : List Char) : Option Seam := do
  let range := rope.clipRange range
  let headCursor := rope.seekOffset range.start .right
  let head ← seamHead headCursor range.start
  let tailCursor := rope.seekOffset range.stop .left
  let tail ← seamTail tailCursor range.stop
  some ⟨headCursor.slice, head ++ insert ++ tail, (tailCursor.next TextSummary.fromStr).suffix⟩

def Untouched (rope : Rope) (range : Range) (insert : List Char) : Prop :=
  (rope.clipRange range).start ≥ (rope.clipRange range).stop ∧ insert = []

def ReplaceFits (rope : Rope) (range : Range) (insert : List Char) : Prop :=
  rope.Untouched range insert ∨ ∀ seam ∈ rope.seam range insert,
    ∀ pieces ∈ splitIntoChunks seam.text,
      Joins seam.before (pieces ++ seam.behind) ∧ Joins pieces seam.behind

def AppendFits (rope other : Rope) : Prop :=
  ∀ trailing ∈ rope.chunks.getLast?, ∀ first second later,
    other.chunks = first :: second :: later →
      leftOver trailing first = [] ∨ Filled (leftOver trailing first) second

variable {rope : Rope}

variable {range : Range} {insert : List Char}

theorem replace_seam {replaced : Rope} (h : rope.replace range insert = some replaced) :
    (rope.Untouched range insert ∧ replaced = rope) ∨
      ¬ rope.Untouched range insert ∧ ∃ seam pieces, rope.seam range insert = some seam ∧
        splitIntoChunks seam.text = some pieces ∧
          replaced.chunks = seam.before ++ (pieces ++ seam.behind) := by
  simp only [replace] at h
  split at h
  · rename_i hnothing
    exact .inl ⟨hnothing, (some.inj h).symm⟩
  · rename_i htouched
    obtain ⟨head, hhead, hrest⟩ := bind_eq_some_iff.mp h
    obtain ⟨tail, htail, hcut⟩ := bind_eq_some_iff.mp hrest
    obtain ⟨pieces, hpieces, hreplaced⟩ := bind_eq_some_iff.mp hcut
    have hseam : rope.seam range insert =
        some ⟨(rope.seekOffset (rope.clipRange range).start .right).slice, head ++ insert ++ tail,
          ((rope.seekOffset (rope.clipRange range).stop .left).next
            TextSummary.fromStr).suffix⟩ := by
      simp only [seam, hhead, htail, bind_eq_bind, bind_some]
    refine .inr ⟨htouched, _, pieces, hseam, hpieces, ?_⟩
    rw [← some.inj hreplaced, List.append_assoc]

theorem slice_dense (h : Dense rope.chunks) (offset : ℕ) (bias : Bias) :
    Dense (rope.seekOffset offset bias).slice ∧
      Dense ((rope.seekOffset offset bias).next TextSummary.fromStr).suffix := by
  have hsplit : (rope.seekOffset offset bias).slice ++ (rope.seekOffset offset bias).suffix =
    rope.chunks := (seek_lands TextSummary.fromStr _ rope.chunks).split
  rw [← hsplit, dense_append] at h
  refine ⟨h.1, ?_⟩
  rw [Cursor.next]
  cases hitems : (rope.seekOffset offset bias).items with
  | nil =>
    rw [Cursor.suffix, hitems]
    exact .nil
  | cons item items =>
    have hdense := h.2.1
    rw [Cursor.suffix, hitems] at hdense
    exact List.IsChain.tail hdense

theorem seam_dense (h : Dense rope.chunks) {seam : Seam}
    (hseam : rope.seam range insert = some seam) : Dense seam.before ∧ Dense seam.behind := by
  obtain ⟨head, -, hrest⟩ := bind_eq_some_iff.mp hseam
  obtain ⟨tail, -, hsome⟩ := bind_eq_some_iff.mp hrest
  cases hsome
  exact ⟨(slice_dense h _ _).1, (slice_dense h _ _).2⟩

theorem replace_dense_iff (h : Dense rope.chunks)
    {replaced : Rope} (hreplace : rope.replace range insert = some replaced) :
    Dense replaced.chunks ↔ rope.ReplaceFits range insert := by
  rcases replace_seam hreplace with
    ⟨hnothing, rfl⟩ | ⟨htouched, seam, pieces, hseam, hpieces, hchunks⟩
  · exact ⟨fun _ => .inl hnothing, fun _ => h⟩
  · obtain ⟨hbefore, hbehind⟩ := seam_dense h hseam
    have hdense := splitIntoChunks_dense hpieces
    rw [hchunks, dense_append, dense_append]
    constructor
    · rintro ⟨-, ⟨-, -, hright⟩, hleft⟩
      refine .inr fun other hother parts hparts => ?_
      obtain rfl := some.inj (hseam.symm.trans hother)
      obtain rfl := some.inj (hpieces.symm.trans hparts)
      exact ⟨hleft, hright⟩
    · intro hfits
      obtain ⟨hleft, hright⟩ := hfits.resolve_left htouched seam hseam pieces hpieces
      exact ⟨hbefore, ⟨hdense, hbehind, hright⟩, hleft⟩

theorem push_dense (hgood : rope.WellFormed) (h : Dense rope.chunks)
    {pushed : Rope} (hpush : rope.push text = some pushed) : Dense pushed.chunks := by
  rw [push] at hpush
  split at hpush
  · cases hpush
    exact h
  · obtain ⟨topped, htopped, hrest⟩ := bind_eq_some_iff.mp hpush
    rcases topUp_shape hgood text with ⟨hnil, htop⟩ | ⟨init, trailing, hchunks, htop⟩
    · obtain rfl := some.inj (htop.symm.trans htopped)
      split at hrest
      · cases hrest
        exact .nil
      · obtain ⟨pieces, hpieces, hsome⟩ := bind_eq_some_iff.mp hrest
        cases hsome
        exact splitIntoChunks_dense hpieces
    · obtain rfl := some.inj (htop.symm.trans htopped)
      rw [hchunks, dense_append] at h
      have hdense : Dense (init ++
          [trailing ++ Plain.upTo text (chunkTopUpLimit - byteLen trailing)]) := by
        refine dense_append.mpr ⟨h.1, .singleton _, fun a ha b hb => ?_⟩
        cases hb
        have hold := h.2.2 a ha trailing rfl
        unfold Filled at hold ⊢
        rw [byteLen_append]
        omega
      split at hrest
      · cases hrest
        exact hdense
      · rename_i hleft
        obtain ⟨pieces, hpieces, hsome⟩ := bind_eq_some_iff.mp hrest
        cases hsome
        refine dense_append.mpr ⟨hdense, splitIntoChunks_dense hpieces, fun a ha b _ => ?_⟩
        rw [List.getLast?_concat] at ha
        cases ha
        have hreach := (upTo_reach hleft).1
        unfold Filled
        rw [byteLen_append]
        simp only [chunkTopUpLimit, maxChunkBytes] at hreach ⊢
        omega

theorem isEmpty_iff (h : rope.WellFormed) : rope.isEmpty ↔ rope.chunks = [] := by
  rw [isEmpty, len_eq, beq_iff_eq]
  constructor
  · intro hlen
    cases hchunks : rope.chunks with
    | nil => rfl
    | cons chunk rest =>
      have hpos := byteLen_pos.mpr (h chunk (by rw [hchunks]; exact List.mem_cons_self)).1
      rw [content, hchunks, List.flatten_cons, byteLen_append] at hlen
      omega
  · intro hnil
    rw [content, hnil]
    rfl

theorem push_chunk {init : List (List Char)} {trailing chunk : List Char} {pushed : Rope}
    (hgood : rope.WellFormed) (hchunks : rope.chunks = init ++ [trailing])
    (hchunk : GoodChunk chunk) (hpush : rope.push chunk = some pushed) :
    pushed.chunks = init ++ [trailing ++ Plain.upTo chunk (chunkTopUpLimit - byteLen trailing)] ++
      if leftOver trailing chunk = [] then [] else [leftOver trailing chunk] := by
  rcases topUp_shape hgood chunk with ⟨hnil, -⟩ | ⟨first, last, hother, htop⟩
  · simp [hchunks] at hnil
  · obtain ⟨rfl, hlast⟩ := List.append_inj' (hchunks.symm.trans hother) rfl
    obtain rfl := List.singleton_inj.mp hlast
    rw [push, if_neg hchunk.1, htop] at hpush
    simp only [bind_eq_bind, bind_some] at hpush
    rw [leftOver]
    split at hpush
    · rename_i hnil
      rw [if_pos hnil, List.append_nil, ← some.inj hpush]
    · rename_i hleft
      have hshort := le_trans (after_le chunk (chunkTopUpLimit - byteLen trailing)) hchunk.2
      rw [splitIntoChunks_single hleft hshort, bind_some] at hpush
      rw [if_neg hleft, ← some.inj hpush]

theorem append_joins_iff {init later : List (List Char)} {trailing first second : List Char}
    (hchunks : rope.chunks = init ++ [trailing]) {other : Rope}
    (hother : other.chunks = first :: second :: later) (h : Filled first second) :
    Joins (init ++ [trailing ++ Plain.upTo first (chunkTopUpLimit - byteLen trailing)] ++
      if leftOver trailing first = [] then [] else [leftOver trailing first]) (second :: later) ↔
      rope.AppendFits other := by
  have hlast : rope.chunks.getLast? = some trailing := by rw [hchunks, List.getLast?_concat]
  by_cases hleft : leftOver trailing first = []
  · rw [if_pos hleft, List.append_nil]
    constructor
    · intro _ last hlast' a b rest hab
      obtain rfl := some.inj (hlast.symm.trans hlast')
      obtain ⟨rfl, -⟩ := List.cons.inj (hother.symm.trans hab)
      exact .inl hleft
    · intro _ a ha b hb
      rw [List.getLast?_concat] at ha
      cases ha
      cases hb
      have hall := upTo_after first (chunkTopUpLimit - byteLen trailing)
      rw [← leftOver, hleft, List.append_nil] at hall
      unfold Filled at h ⊢
      rw [hall, byteLen_append]
      omega
  · rw [if_neg hleft]
    constructor
    · intro hjoins last hlast' a b rest hab
      obtain rfl := some.inj (hlast.symm.trans hlast')
      obtain ⟨rfl, hrest⟩ := List.cons.inj (hother.symm.trans hab)
      obtain ⟨rfl, -⟩ := List.cons.inj hrest
      exact .inr (hjoins _ (by rw [List.getLast?_concat]; rfl) _ rfl)
    · intro hfits a ha b hb
      rw [List.getLast?_concat] at ha
      cases ha
      cases hb
      exact (hfits trailing hlast first second later hother).resolve_left hleft

theorem append_dense_iff {other joined : Rope} (hgood : rope.WellFormed)
    (hother : other.WellFormed) (h : Dense rope.chunks) (ho : Dense other.chunks)
    (happend : rope.append other = some joined) :
    Dense joined.chunks ↔ rope.AppendFits other := by
  rw [append] at happend
  split at happend
  · rename_i hempty
    cases happend
    refine ⟨fun _ trailing _ first second later hchunks => ?_, fun _ => h⟩
    rw [(isEmpty_iff hother).mp hempty] at hchunks
    cases hchunks
  · rename_i hsome
    split at happend
    · rename_i hempty
      cases happend
      refine ⟨fun _ trailing htrailing => ?_, fun _ => ho⟩
      rw [(isEmpty_iff hgood).mp hempty] at htrailing
      cases htrailing
    · rename_i hfull
      split at happend
      · rename_i first hfirst
        obtain ⟨later, hlater⟩ := List.head?_eq_some_iff.mp hfirst
        obtain ⟨pushed, hpushed, hjoined⟩ := bind_eq_some_iff.mp happend
        rw [seek_second hlater hother] at hjoined
        cases hjoined
        have hne : rope.chunks ≠ [] := fun hnil => hfull ((isEmpty_iff hgood).mpr hnil)
        obtain ⟨init, trailing, hchunks⟩ := (List.eq_nil_or_concat' _).resolve_left hne
        have hfirstGood := hother first (by rw [hlater]; exact List.mem_cons_self)
        have hdense := push_dense hgood h hpushed
        rw [hlater] at ho
        have hcons := List.isChain_cons.mp ho
        have hsplit : Dense (pushed.chunks ++ later) ↔ Joins pushed.chunks later := by
          rw [dense_append]
          exact ⟨fun hall => hall.2.2, fun hjoins => ⟨hdense, hcons.2, hjoins⟩⟩
        refine hsplit.trans ?_
        cases later with
        | nil =>
          refine ⟨fun _ last _ a b rest hab => ?_, fun _ a _ b hb => by cases hb⟩
          cases (hlater.symm.trans hab)
        | cons second later =>
          rw [push_chunk hgood hchunks hfirstGood hpushed]
          exact append_joins_iff hchunks hlater (hcons.1 second rfl)
      · rename_i hnone
        exact absurd ((isEmpty_iff hother).mpr (List.head?_eq_none_iff.mp hnone)) hsome

end Rope

def Edits.Fits : Edits → Prop
  | .new => True
  | .push edits _ => edits.Fits
  | .append edits other => edits.Fits ∧ other.Fits ∧
    ∀ rope ∈ edits.rope, ∀ tail ∈ other.rope, rope.AppendFits tail
  | .replace edits range insert => edits.Fits ∧
    ∀ rope ∈ edits.rope, rope.ReplaceFits range insert

theorem Edits.dense {edits : Edits} (h : edits.Fits) {rope : Rope}
    (hrope : edits.rope = some rope) : Dense rope.chunks := by
  induction edits generalizing rope with
  | new =>
    cases hrope
    exact .nil
  | push edits text ih =>
    obtain ⟨before, hbefore, hpush⟩ := bind_eq_some_iff.mp hrope
    obtain ⟨_, hsame, -, hgood⟩ := edits.rope_content
    obtain rfl := some.inj (hbefore.symm.trans hsame)
    exact Rope.push_dense hgood (ih h hbefore) hpush
  | append edits other ih ihOther =>
    obtain ⟨hedits, hother, hfits⟩ := h
    obtain ⟨before, hbefore, hrest⟩ := bind_eq_some_iff.mp hrope
    obtain ⟨tail, htail, happend⟩ := bind_eq_some_iff.mp hrest
    obtain ⟨_, hsame, -, hgood⟩ := edits.rope_content
    obtain rfl := some.inj (hbefore.symm.trans hsame)
    obtain ⟨_, hsameTail, -, hgoodTail⟩ := other.rope_content
    obtain rfl := some.inj (htail.symm.trans hsameTail)
    exact (Rope.append_dense_iff hgood hgoodTail (ih hedits hbefore) (ihOther hother htail)
      happend).mpr (hfits before hbefore tail htail)
  | replace edits range insert ih =>
    obtain ⟨hedits, hfits⟩ := h
    obtain ⟨before, hbefore, hreplace⟩ := bind_eq_some_iff.mp hrope
    exact (Rope.replace_dense_iff (ih hedits hbefore) hreplace).mpr (hfits before hbefore)

theorem rope_stays_dense (edits : Edits) (h : edits.Fits) :
    ∃ rope, edits.rope = some rope ∧ rope.chunks.length ≤ 1 + 4 * rope.len / maxChunkBytes := by
  obtain ⟨rope, hrope, -, -⟩ := edits.rope_content
  refine ⟨rope, hrope, ?_⟩
  have hcount := dense_count (Edits.dense h hrope)
  rwa [← Rope.content, ← Rope.len_eq] at hcount

theorem typing_inside_a_chunk_fits :
    ∃ rope, (Edits.replace (.push .new ['a', 'b']) ⟨1, 1⟩ ['c']).rope = some rope ∧
      rope.chunks.length ≤ 1 + 4 * rope.len / maxChunkBytes := by
  refine rope_stays_dense _ ⟨trivial, fun rope hrope => .inr fun seam hseam pieces _ => ?_⟩
  have hpushed : (Edits.push .new ['a', 'b']).rope = some ⟨[['a', 'b']]⟩ := by decide +kernel
  obtain rfl := some.inj (hpushed.symm.trans hrope)
  have hcut : Rope.seam ⟨[['a', 'b']]⟩ ⟨1, 1⟩ ['c'] = some ⟨[], ['a', 'c', 'b'], []⟩ := by
    decide +kernel
  obtain rfl := some.inj (hcut.symm.trans hseam)
  exact ⟨fun a ha => (by cases ha), fun _ _ b hb => (by cases hb)⟩

theorem typing_at_the_end_leaves_slivers :
    (Edits.replace (.replace .new ⟨0, 0⟩ ['a']) ⟨1, 1⟩ ['b']).rope = some ⟨[['a'], ['b']]⟩ ∧
      ¬ ([['a'], ['b']] : List (List Char)).length ≤
        1 + 4 * (⟨[['a'], ['b']]⟩ : Rope).len / maxChunkBytes := by
  decide +kernel

end GitComet.Kit
