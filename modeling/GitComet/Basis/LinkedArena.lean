import Mathlib.Data.List.Nodup
import Mathlib.Data.List.Perm.Subperm

namespace LinkedArena
open List Option

variable {α : Type}

structure Node (α : Type) where
  value : α
  previous : Option ℕ
  next : Option ℕ
  alive : Bool
  deriving DecidableEq

structure Arena (α : Type) where
  nodes : List (Node α)
  first : Option ℕ
  last : Option ℕ
  deriving DecidableEq

def Arena.empty : Arena α := ⟨[], none, none⟩

def Node.withNext (id : ℕ) (node : Node α) : Node α := { node with next := some id }

def Node.withPrevious (id : ℕ) (node : Node α) : Node α := { node with previous := some id }

def Node.mapValue (f : α → α) (node : Node α) : Node α := { node with value := f node.value }

def updateNode (nodes : List (Node α)) (id : ℕ) (f : Node α → Node α) : Option (List (Node α)) :=
  if id < nodes.length then some (nodes.modify id f) else none

def Arena.linkNext (list : Arena α) (previous : Option ℕ) (id : ℕ) : Option (Arena α) :=
  match previous with
  | some p => do
    let nodes ← updateNode list.nodes p (Node.withNext id)
    some { list with nodes := nodes }
  | none => some { list with first := some id }

def Arena.linkPrevious (list : Arena α) (before : Option ℕ) (id : ℕ) : Option (Arena α) :=
  match before with
  | some b => do
    let nodes ← updateNode list.nodes b (Node.withPrevious id)
    some { list with nodes := nodes }
  | none => some { list with last := some id }

def Arena.insertBefore (list : Arena α) (before : Option ℕ) (value : α) :
    Option (Arena α × ℕ) := do
  let previous := match before with
    | some id => (list.nodes[id]?).bind Node.previous
    | none => list.last
  let id := list.nodes.length
  let pushed : Arena α := { list with nodes := list.nodes ++ [⟨value, previous, before, true⟩] }
  let linked ← pushed.linkNext previous id
  let linked ← linked.linkPrevious before id
  some (linked, id)

def Arena.pushBack (list : Arena α) (value : α) : Option (Arena α × ℕ) :=
  list.insertBefore none value

def Arena.next (list : Arena α) (id : ℕ) : Option ℕ := (list.nodes[id]?).bind Node.next

def Arena.setValue (list : Arena α) (id : ℕ) (f : α → α) : Option (Arena α) := do
  let nodes ← updateNode list.nodes id (Node.mapValue f)
  some { list with nodes := nodes }

def Arena.mapAlive (list : Arena α) (f : α → α) : Arena α :=
  { list with nodes := list.nodes.map fun node => if node.alive then node.mapValue f else node }

def Arena.findFrom (list : Arena α) (p : α → Bool) : ℕ → Option ℕ → Option (Option ℕ)
  | _, none => some none
  | 0, some _ => none
  | fuel + 1, some id => do
    let node ← list.nodes[id]?
    if node.alive && p node.value then some (some id) else list.findFrom p fuel node.next

def Arena.comesBefore (list : Arena α) (right : ℕ) : ℕ → Option ℕ → Option Bool
  | _, none => some false
  | 0, some _ => none
  | fuel + 1, some id =>
    if id = right then some true else list.comesBefore right fuel (list.next id)

def Arena.idsBetween (list : Arena α) (stop : ℕ) : ℕ → Option ℕ → Option (List ℕ)
  | _, none => some []
  | 0, some _ => none
  | fuel + 1, some id =>
    if id = stop then some []
    else do
      let ids ← list.idsBetween stop fuel (list.next id)
      some (id :: ids)

def Arena.collect (list : Arena α) : ℕ → Option ℕ → Option (List α)
  | _, none => some []
  | 0, some _ => none
  | fuel + 1, some id => do
    let node ← list.nodes[id]?
    let values ← list.collect fuel node.next
    some (if node.alive then node.value :: values else values)

def Linked (nodes : List (Node α)) : Option ℕ → List ℕ → Option ℕ → Prop
  | _, [], _ => True
  | p, id :: ids, q =>
    (∃ v, nodes[id]? = some ⟨v, p, ids.head?.or q, true⟩) ∧ Linked nodes (some id) ids q

structure Holds (list : Arena α) (ids : List ℕ) : Prop where
  linked : Linked list.nodes none ids none
  first : list.first = ids.head?
  last : list.last = ids.getLast?
  nodup : ids.Nodup
  size : ids.length = list.nodes.length

def Arena.valueAt (list : Arena α) (id : ℕ) : Option α := (list.nodes[id]?).map Node.value

variable {nodes : List (Node α)} {p q : Option ℕ} {l r : List ℕ}

theorem linked_append :
    Linked nodes p (l ++ r) q ↔
      Linked nodes p l (r.head?.or q) ∧ Linked nodes (l.getLast?.or p) r q := by
  induction l generalizing p with
  | nil => simp [Linked]
  | cons id ids ih =>
    have hlast : (id :: ids).getLast?.or p = ids.getLast?.or (some id) := by
      cases ids with
      | nil => rfl
      | cons j ids => simp [getLast?_cons]
    have hhead : (ids ++ r).head?.or q = ids.head?.or (r.head?.or q) := by
      cases ids <;> simp
    simp only [cons_append, Linked, ih, hlast, hhead, and_assoc]

variable {ids : List ℕ}

theorem linked_congr {nodes' : List (Node α)}
    (h : Linked nodes p ids q) (hsame : ∀ id ∈ ids, nodes'[id]? = nodes[id]?) :
    Linked nodes' p ids q := by
  induction ids generalizing p with
  | nil => trivial
  | cons id ids ih =>
    obtain ⟨⟨v, hv⟩, hrest⟩ := h
    refine ⟨⟨v, by rw [hsame id mem_cons_self, hv]⟩, ih hrest fun j hj => ?_⟩
    exact hsame j (mem_cons_of_mem _ hj)

theorem linked_mem (h : Linked nodes p ids q) :
    ∀ id ∈ ids, ∃ node, nodes[id]? = some node ∧ node.alive := by
  induction ids generalizing p with
  | nil => simp
  | cons id ids ih =>
    obtain ⟨⟨v, hv⟩, hrest⟩ := h
    intro j hj
    rcases mem_cons.mp hj with rfl | hj
    · exact ⟨_, hv, rfl⟩
    · exact ih hrest j hj

theorem linked_lt (h : Linked nodes p ids q) : ∀ id ∈ ids, id < nodes.length := by
  intro id hid
  obtain ⟨node, hnode, _⟩ := linked_mem h id hid
  exact (List.getElem?_eq_some_iff.mp hnode).1

theorem relink_next {x n : ℕ} (h : Linked nodes p (l ++ [x]) q) (hx : x ∉ l) :
    Linked (nodes.modify x (Node.withNext n)) p (l ++ [x]) (some n) := by
  rw [linked_append] at h ⊢
  obtain ⟨hl, ⟨v, hv⟩, -⟩ := h
  refine ⟨linked_congr hl fun id hid => ?_, ⟨v, ?_⟩, trivial⟩
  · have hne : x ≠ id := fun he => hx (he ▸ hid)
    rw [getElem?_modify_ne _ _ hne]
  · rw [getElem?_modify_eq, hv]
    rfl

theorem relink_previous {b n : ℕ} (h : Linked nodes p (b :: r) q) (hb : b ∉ r) :
    Linked (nodes.modify b (Node.withPrevious n)) (some n) (b :: r) q := by
  obtain ⟨⟨v, hv⟩, hr⟩ := h
  refine ⟨⟨v, ?_⟩, linked_congr hr fun id hid => ?_⟩
  · rw [getElem?_modify_eq, hv]
    rfl
  · have hne : b ≠ id := fun he => hb (he ▸ hid)
    rw [getElem?_modify_ne _ _ hne]

structure Inserted (list list' : Arena α) (l r : List ℕ) (value : α) : Prop where
  holds : Holds list' (l ++ list.nodes.length :: r)
  size : list'.nodes.length = list.nodes.length + 1
  new : list'.valueAt list.nodes.length = some value
  old : ∀ id, id ≠ list.nodes.length → list'.valueAt id = list.valueAt id

variable {id : ℕ}

theorem updateNode_eq (f : Node α → Node α)
    (h : id < nodes.length) : updateNode nodes id f = some (nodes.modify id f) :=
  if_pos h

theorem modify_value {i : ℕ} {f : Node α → Node α} (hf : ∀ node, (f node).value = node.value) :
    ((nodes.modify i f)[id]?).map Node.value = (nodes[id]?).map Node.value := by
  by_cases h : i = id
  · subst h
    rw [getElem?_modify_eq]
    cases nodes[i]? with
    | none => rfl
    | some node => exact congrArg some (hf node)
  · rw [getElem?_modify_ne _ _ h]

theorem linked_push (node : Node α) (h : Linked nodes p ids q) : Linked (nodes ++ [node]) p ids q :=
  linked_congr h fun id hid => getElem?_append_left (linked_lt h id hid)

-- What holds between the two link updates of an insertion between `l` and `r`: the new node and
-- its left neighbour point at each other, the right neighbour still points over it.
structure HalfLinked (list list' : Arena α) (l r : List ℕ) (value : α) : Prop where
  left : Linked list'.nodes none l (some list.nodes.length)
  right : Linked list'.nodes l.getLast? r none
  new : list'.nodes[list.nodes.length]? = some ⟨value, l.getLast?, r.head?, true⟩
  size : list'.nodes.length = list.nodes.length + 1
  old : ∀ id, id ≠ list.nodes.length → list'.valueAt id = list.valueAt id
  first : list'.first = (l ++ list.nodes.length :: r).head?
  last : list'.last = list.last

variable {list : Arena α}

theorem holds_fresh (h : Holds list ids) : list.nodes.length ∉ ids :=
  fun hmem => Nat.lt_irrefl _ (linked_lt h.linked _ hmem)

theorem linkNext_spec (h : Holds list (l ++ r)) (value : α) :
    ∃ list', ({ list with nodes := list.nodes ++ [⟨value, l.getLast?, r.head?, true⟩] } :
        Arena α).linkNext l.getLast? list.nodes.length = some list' ∧
      HalfLinked list list' l r value := by
  obtain ⟨hleft, hright⟩ := linked_append.mp h.linked
  rw [or_none] at hleft hright
  have hpush := linked_push ⟨value, l.getLast?, r.head?, true⟩ hleft
  have hpush' := linked_push ⟨value, l.getLast?, r.head?, true⟩ hright
  have hold : ∀ id, id ≠ list.nodes.length →
      ((list.nodes ++ [⟨value, l.getLast?, r.head?, true⟩])[id]?).map Node.value =
        (list.nodes[id]?).map Node.value := by
    intro id hid
    rcases Nat.lt_or_ge id list.nodes.length with hlt | hge
    · rw [getElem?_append_left hlt]
    · rw [getElem?_eq_none (by simp; omega), getElem?_eq_none hge]
  rcases eq_nil_or_concat' l with rfl | ⟨l, x, rfl⟩
  · refine ⟨_, rfl, trivial, hpush', by simp, by simp, hold, by simp, rfl⟩
  · have hlast : (l ++ [x]).getLast? = some x := by simp
    have hx : x < list.nodes.length := linked_lt hleft x (by simp)
    have hnodup := nodup_append.mp h.nodup
    have hxl : x ∉ l := by
      have := nodup_append.mp hnodup.1
      intro hmem
      exact this.2.2 x hmem x (by simp) rfl
    have hxr : x ∉ r := fun hmem => hnodup.2.2 x (by simp) x hmem rfl
    rw [hlast] at hpush hpush' hold ⊢
    refine ⟨⟨(list.nodes ++ [Node.mk value (some x) r.head? true]).modify x
      (Node.withNext list.nodes.length), list.first, list.last⟩, by
      simp only [Arena.linkNext]
      rw [updateNode_eq _ (by simp; omega)]
      rfl, relink_next hpush hxl, ?_, ?_, by simp, ?_, ?_, rfl⟩
    · rw [hlast]
      refine linked_congr hpush' fun id hid => ?_
      rw [getElem?_modify_ne _ _ (fun he : x = id => hxr (he ▸ hid))]
    · rw [getElem?_modify_ne _ _ (by omega)]
      simp
    · intro id hid
      simp only [Arena.valueAt]
      rw [modify_value (f := Node.withNext list.nodes.length) fun _ => rfl]
      exact hold id hid
    · simpa using h.first

theorem linkPrevious_spec {half : Arena α} {value : α}
    (h : Holds list (l ++ r)) (hhalf : HalfLinked list half l r value) :
    ∃ list', half.linkPrevious r.head? list.nodes.length = some list' ∧
      Inserted list list' l r value := by
  have hfresh := holds_fresh h
  have hnodup : (l ++ list.nodes.length :: r).Nodup := by
    rw [nodup_middle]
    exact nodup_cons.mpr ⟨hfresh, h.nodup⟩
  have hsize : (l ++ list.nodes.length :: r).length = list.nodes.length + 1 := by
    rw [← h.size, length_append, length_cons, length_append]
    omega
  cases r with
  | nil =>
    refine ⟨_, rfl, ⟨?_, hhalf.first, by simp, hnodup, by rw [hsize, ← hhalf.size]⟩, hhalf.size,
      by simp only [Arena.valueAt, hhalf.new]; rfl, hhalf.old⟩
    rw [linked_append]
    exact ⟨hhalf.left, ⟨value, by simpa using hhalf.new⟩, trivial⟩
  | cons b r =>
    have hb : b < half.nodes.length := linked_lt hhalf.right b mem_cons_self
    have hbr : b ∉ r := by
      have := nodup_append.mp h.nodup
      exact (nodup_cons.mp this.2.1).1
    have hbl : b ∉ l := by
      have := nodup_append.mp h.nodup
      exact fun hmem => this.2.2 b hmem b mem_cons_self rfl
    have hbn : b ≠ list.nodes.length := by
      rintro rfl
      exact hfresh (by simp)
    refine ⟨{ half with nodes := half.nodes.modify b (Node.withPrevious list.nodes.length) }, by
      simp only [Arena.linkPrevious, head?_cons]
      rw [updateNode_eq _ hb]
      rfl, ⟨?_, hhalf.first, ?_, hnodup, ?_⟩, by simpa using hhalf.size, ?_, ?_⟩
    · rw [linked_append]
      refine ⟨linked_congr hhalf.left fun id hid => ?_, ⟨value, ?_⟩,
        relink_previous hhalf.right hbr⟩
      · rw [getElem?_modify_ne _ _ (fun he : b = id => hbl (he ▸ hid))]
      · rw [getElem?_modify_ne _ _ hbn, hhalf.new]
        simp
    · simp only [hhalf.last, h.last]
      simp [getLast?_append, getLast?_cons]
    · rw [hsize, List.length_modify, hhalf.size]
    · simp only [Arena.valueAt]
      rw [modify_value (f := Node.withPrevious list.nodes.length) fun _ => rfl, hhalf.new]
      rfl
    · intro id hid
      simp only [Arena.valueAt]
      rw [modify_value (f := Node.withPrevious list.nodes.length) fun _ => rfl]
      exact hhalf.old id hid

theorem insertBefore_spec (h : Holds list (l ++ r)) (value : α) :
    ∃ list', list.insertBefore r.head? value = some (list', list.nodes.length) ∧
      Inserted list list' l r value := by
  have hprev : (match r.head? with
      | some id => (list.nodes[id]?).bind Node.previous
      | none => list.last) = l.getLast? := by
    have hlinked := (linked_append.mp h.linked).2
    cases r with
    | nil => simpa using h.last
    | cons b r =>
      obtain ⟨v, hv⟩ := hlinked.1
      simp [hv]
  obtain ⟨half, hhalf, hspec⟩ := linkNext_spec h value
  obtain ⟨list', hlist', hinserted⟩ := linkPrevious_spec h hspec
  refine ⟨list', ?_, hinserted⟩
  simp only [Arena.insertBefore, hprev, hhalf, hlist', bind_eq_bind, bind_some]

theorem empty_holds : Holds (Arena.empty : Arena α) [] :=
  ⟨trivial, rfl, rfl, nodup_nil, rfl⟩

theorem next_spec {i : Arena α} {d : ℕ} (h : Holds i (l ++ d :: r)) : i.next d = r.head? := by
  obtain ⟨v, hv⟩ := (linked_append.mp h.linked).2.1
  simp [Arena.next, hv]

structure Updated (list list' : Arena α) (id : ℕ) (f : α → α) (ids : List ℕ) : Prop where
  holds : Holds list' ids
  size : list'.nodes.length = list.nodes.length
  here : list'.valueAt id = (list.valueAt id).map f
  other : ∀ j, j ≠ id → list'.valueAt j = list.valueAt j

theorem linked_modify (id : ℕ) (f : α → α) (h : Linked nodes p ids q) :
    Linked (nodes.modify id (Node.mapValue f)) p ids q := by
  induction ids generalizing p with
  | nil => trivial
  | cons j ids ih =>
    obtain ⟨⟨v, hv⟩, hrest⟩ := h
    refine ⟨?_, ih hrest⟩
    by_cases hj : id = j
    · subst hj
      exact ⟨f v, by rw [getElem?_modify_eq, hv]; rfl⟩
    · exact ⟨v, by rw [getElem?_modify_ne _ _ hj, hv]⟩

theorem setValue_spec {i : ℕ} (h : Holds list ids) (hid : i ∈ ids) (f : α → α) :
    ∃ list', list.setValue i f = some list' ∧ Updated list list' i f ids := by
  have hlt := linked_lt h.linked i hid
  refine ⟨{ list with nodes := list.nodes.modify i (Node.mapValue f) }, by rw [Arena.setValue, updateNode_eq _ hlt]; rfl,
    ⟨linked_modify i f h.linked, h.first, h.last, h.nodup, by simpa using h.size⟩,
    by simp, ?_, ?_⟩
  · simp only [Arena.valueAt]
    rw [getElem?_modify_eq]
    cases list.nodes[i]? <;> rfl
  · intro j hj
    simp only [Arena.valueAt]
    rw [getElem?_modify_ne _ _ (Ne.symm hj)]

theorem findFrom_spec {p : α → Bool} (ids : List ℕ) : ∀ {q : Option ℕ} {n : ℕ},
    Linked list.nodes q ids none → ids.length ≤ n →
      list.findFrom p n ids.head? = some (ids.find? fun id => (list.valueAt id).any p) := by
  induction ids with
  | nil =>
    intro q n _ _
    cases n <;> rfl
  | cons id ids ih =>
    intro q n h hn
    obtain ⟨⟨v, hv⟩, hrest⟩ := h
    cases n with
    | zero => simp at hn
    | succ n =>
      have hn' : ids.length ≤ n := by simpa using hn
      simp only [head?_cons, Arena.findFrom, hv, bind_eq_bind, bind_some,
        Bool.true_and, or_none, find?_cons, Arena.valueAt, map_some,
        any_some]
      cases p v with
      | true => rfl
      | false => exact ih hrest hn'

theorem comesBefore_spec {r : ℕ} (ids : List ℕ) :
    ∀ {q : Option ℕ} {n : ℕ}, Linked list.nodes q ids none → ids.length ≤ n →
      list.comesBefore r n ids.head? = some (decide (r ∈ ids)) := by
  induction ids with
  | nil =>
    intro q n _ _
    cases n <;> simp [Arena.comesBefore]
  | cons id ids ih =>
    intro q n h hn
    obtain ⟨⟨v, hv⟩, hrest⟩ := h
    cases n with
    | zero => simp at hn
    | succ n =>
      have hn' : ids.length ≤ n := by simpa using hn
      have hnext : list.next id = ids.head? := by simp [Arena.next, hv]
      simp only [head?_cons, Arena.comesBefore, hnext, ih hrest hn']
      by_cases he : id = r
      · simp [he]
      · have he' : r ≠ id := Ne.symm he
        simp [he, he']

theorem idsBetween_spec {s : ℕ} (ids : List ℕ) :
    ∀ {q : Option ℕ} {n : ℕ}, Linked list.nodes q ids none → ids.length ≤ n →
      list.idsBetween s n ids.head? = some (ids.takeWhile fun id => decide (id ≠ s)) := by
  induction ids with
  | nil =>
    intro q n _ _
    cases n <;> rfl
  | cons id ids ih =>
    intro q n h hn
    obtain ⟨⟨v, hv⟩, hrest⟩ := h
    cases n with
    | zero => simp at hn
    | succ n =>
      have hn' : ids.length ≤ n := by simpa using hn
      have hnext : list.next id = ids.head? := by simp [Arena.next, hv]
      simp only [head?_cons, Arena.idsBetween, hnext, ih hrest hn']
      by_cases he : id = s
      · simp [he]
      · simp [he]

theorem collect_spec (ids : List ℕ) : ∀ {q : Option ℕ} {n : ℕ},
    Linked list.nodes q ids none → ids.length ≤ n →
      list.collect n ids.head? = some (ids.filterMap list.valueAt) := by
  induction ids with
  | nil =>
    intro q n _ _
    cases n <;> rfl
  | cons id ids ih =>
    intro q n h hn
    obtain ⟨⟨v, hv⟩, hrest⟩ := h
    cases n with
    | zero => simp at hn
    | succ n =>
      have hn' : ids.length ≤ n := by simpa using hn
      have hval : list.valueAt id = some v := by simp [Arena.valueAt, hv]
      simp only [head?_cons, Arena.collect, hv, bind_eq_bind, bind_some,
        or_none, ih hrest hn', if_true, filterMap_cons, hval]

theorem linked_mapAlive (f : α → α) (h : Linked nodes p ids q) :
    Linked (nodes.map fun node => if node.alive then node.mapValue f else node) p ids q := by
  induction ids generalizing p with
  | nil => trivial
  | cons j ids ih =>
    obtain ⟨⟨v, hv⟩, hrest⟩ := h
    exact ⟨⟨f v, by rw [getElem?_map, hv]; rfl⟩, ih hrest⟩

structure Mapped (list list' : Arena α) (f : α → α) (ids : List ℕ) : Prop where
  holds : Holds list' ids
  size : list'.nodes.length = list.nodes.length
  value : ∀ id ∈ ids, list'.valueAt id = (list.valueAt id).map f

theorem mapAlive_spec (f : α → α) (h : Holds list ids) : Mapped list (list.mapAlive f) f ids := by
  refine ⟨⟨linked_mapAlive f h.linked, h.first, h.last, h.nodup, ?_⟩, ?_, ?_⟩
  · simpa [Arena.mapAlive] using h.size
  · simp [Arena.mapAlive]
  · intro id hid
    obtain ⟨node, hnode, halive⟩ := linked_mem h.linked id hid
    simp [Arena.valueAt, Arena.mapAlive, Node.mapValue, hnode, halive]

theorem valueAt_isSome (h : Holds list ids) (hid : id ∈ ids) : ∃ v, list.valueAt id = some v := by
  obtain ⟨node, hnode, _⟩ := linked_mem h.linked id hid
  exact ⟨node.value, by rw [Arena.valueAt, hnode]; rfl⟩

theorem holds_mem (h : Holds list ids) (hid : id < list.nodes.length) : id ∈ ids := by
  have hsub : ids ⊆ range list.nodes.length := fun j hj =>
    mem_range.mpr (linked_lt h.linked j hj)
  have hperm : ids.Perm (range list.nodes.length) :=
    (subperm_of_subset h.nodup hsub).perm_of_length_le
      (Nat.le_of_eq (by rw [length_range, h.size]))
  exact hperm.mem_iff.mpr (mem_range.mpr hid)

end LinkedArena
