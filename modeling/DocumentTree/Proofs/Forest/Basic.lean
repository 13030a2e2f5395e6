import DocumentTree.NodeId
import DocumentTree.Proofs.Forest.Neighbours
import Mathlib.Logic.Relation
/-!
# Ordered forests

The plainest account of a document: for every id an ordered list of
children, and a parent or none. There are no sibling links to keep in
agreement, so every edit is said in one line, as a list operation. What the
five links of the arena are for is to read a forest off them without
searching, and `Forest.next` and `Forest.prev` say what they have to hold.
-/

namespace DocumentTree

/-- A child list and perhaps a parent for every id below `size`. -/
@[ext]
structure Forest where
  size : Nat
  children : NodeId → List NodeId
  parent : NodeId → Option NodeId

/-- Where a child list can be entered: at either end, which is the parent's
own, or at an entry. -/
inductive Place where
  | edge (parent : NodeId)
  | entry (id : NodeId)
  deriving DecidableEq

/-- The place of an entry of a parent's list, with the parent standing in
for a missing one. -/
def Place.of (parent : NodeId) : Option NodeId → Place
  | none => .edge parent
  | some id => .entry id

@[simp] theorem Place.of_eq_of_iff {p : NodeId} {a b : Option NodeId} :
    Place.of p a = Place.of p b ↔ a = b := by
  cases a <;> cases b <;> simp [Place.of]

@[simp] theorem Place.of_eq_entry_iff {p id : NodeId} {a : Option NodeId} :
    Place.of p a = .entry id ↔ a = some id := by
  cases a <;> simp [Place.of]

namespace Forest

variable {F : Forest} {p q c d s id a b : NodeId} {r : Option NodeId}

/-- A node lies below another one, at any depth. -/
def Below (F : Forest) : NodeId → NodeId → Prop :=
  Relation.TransGen fun child parent => F.parent child = some parent

/-- Lists and parents say the same, nothing is listed twice, all of it is
below the size, and no node is below itself. -/
structure WellFormed (F : Forest) : Prop where
  parent_lt : ∀ c p, F.parent c = some p → c.index < F.size ∧ p.index < F.size
  mem_children : ∀ p c, c ∈ F.children p ↔ F.parent c = some p
  nodup_children : ∀ p, (F.children p).Nodup
  acyclic : ∀ id, ¬ F.Below id id

/-! ## Neighbours of a place -/

/-- What follows a place, given the child lists and the parents. -/
def neighbour (lists : NodeId → List NodeId) (parent : NodeId → Option NodeId) :
    Place → Option NodeId
  | .edge p => (lists p).head?
  | .entry id => (parent id).bind fun p => follower id (lists p)

/-- What follows a place: the first child, or the next sibling. -/
def next (F : Forest) : Place → Option NodeId := neighbour F.children F.parent

/-- What precedes a place: the last child, or the previous sibling. -/
def prev (F : Forest) : Place → Option NodeId :=
  neighbour (fun p => (F.children p).reverse) F.parent

section Neighbour

variable {lists : NodeId → List NodeId} {parent : NodeId → Option NodeId}

theorem neighbour_of {b : Option NodeId} (hb : ∀ x ∈ b, parent x = some p) :
    neighbour lists parent (.of p b) = nextIn (lists p) b := by
  cases b with
  | none => rfl
  | some x => simp [Place.of, neighbour, nextIn, hb x rfl]

theorem neighbour_entry_of_orphan (h : parent id = none) :
    neighbour lists parent (.entry id) = none := by
  simp [neighbour, h]

/-- What stands next to a place is somebody's child. -/
theorem exists_parent_of_neighbour (hmem : ∀ p c, c ∈ lists p ↔ parent c = some p) {place : Place}
    (h : neighbour lists parent place = some c) : ∃ p, parent c = some p := by
  cases place with
  | edge p => exact ⟨p, (hmem p c).1 (List.mem_of_head? h)⟩
  | entry id =>
    obtain ⟨p, -, hc⟩ := Option.bind_eq_some_iff.1 h
    exact ⟨p, (hmem p c).1 (mem_of_follower hc).2⟩

/-- A place is a place of some list, or a parentless node. -/
theorem exists_eq_of_or_orphan (parent : NodeId → Option NodeId) (place : Place) :
    (∃ p b, place = .of p b ∧ ∀ x ∈ b, parent x = some p) ∨
      ∃ id, place = .entry id ∧ parent id = none := by
  cases place with
  | edge p => exact .inl ⟨p, none, rfl, by simp⟩
  | entry id =>
    cases hp : parent id with
    | none => exact .inr ⟨id, rfl, hp⟩
    | some p => exact .inl ⟨p, some id, rfl, by simpa using hp⟩

/-- Places of different lists are different. -/
theorem of_ne_of {a b : Option NodeId} (ha : ∀ x ∈ a, parent x = some q)
    (hb : ∀ x ∈ b, parent x = some p) (h : q ≠ p) : Place.of q a ≠ .of p b := by
  intro he
  cases a <;> cases b <;> simp_all [Place.of]

end Neighbour

/-! ## Neighbours in a well-formed forest -/

namespace WellFormed

/-- Read backwards, lists and parents say the same still. -/
theorem mem_reverse_children (hF : F.WellFormed) (p c : NodeId) :
    c ∈ (F.children p).reverse ↔ F.parent c = some p := by
  rw [List.mem_reverse, hF.mem_children]

theorem lt_of_next (hF : F.WellFormed) {place : Place} (h : F.next place = some c) :
    c.index < F.size := by
  obtain ⟨p, hp⟩ := exists_parent_of_neighbour hF.mem_children h
  exact (hF.parent_lt c p hp).1

theorem lt_of_prev (hF : F.WellFormed) {place : Place} (h : F.prev place = some c) :
    c.index < F.size := by
  obtain ⟨p, hp⟩ := exists_parent_of_neighbour hF.mem_reverse_children h
  exact (hF.parent_lt c p hp).1

/-- Both ends of a way up are in the forest. -/
theorem lt_of_below (hF : F.WellFormed) (h : F.Below id p) : id.index < F.size ∧ p.index < F.size := by
  obtain ⟨q, hq, -⟩ := Relation.TransGen.head'_iff.1 h
  obtain ⟨c, -, hc⟩ := Relation.TransGen.tail'_iff.1 h
  exact ⟨(hF.parent_lt id q hq).1, (hF.parent_lt c p hc).2⟩

/-- A node without a parent is in no list. -/
theorem not_mem_children_of_root (hF : F.WellFormed) (hc : F.parent c = none) (p : NodeId) :
    c ∉ F.children p := fun h => by
  rw [hF.mem_children, hc] at h
  cases h

/-- An id past the size has no parent. -/
theorem parent_eq_none_of_le (hF : F.WellFormed) (hid : F.size ≤ id.index) : F.parent id = none :=
  Option.eq_none_iff_forall_ne_some.2 fun p hp => Nat.not_lt.2 hid (hF.parent_lt id p hp).1

/-- An id past the size has no children. -/
theorem children_eq_nil_of_le (hF : F.WellFormed) (hid : F.size ≤ id.index) :
    F.children id = [] :=
  List.eq_nil_iff_forall_not_mem.2 fun c hc =>
    Nat.not_lt.2 hid (hF.parent_lt c id ((hF.mem_children id c).1 hc)).2

section Cut

variable {front back : List NodeId}

/-- Across a cut the last entry before it is followed by the first behind
it. -/
theorem next_of_cut (hF : F.WellFormed) (h : F.children p = front ++ back) :
    F.next (.of p front.getLast?) = back.head? := by
  have hfront : ∀ x ∈ front.getLast?, F.parent x = some p := fun x hx =>
    (hF.mem_children p x).1 (h ▸ List.mem_append_left _ (List.mem_of_getLast? hx))
  rw [next, neighbour_of hfront, h]
  exact nextIn_getLast? (h ▸ hF.nodup_children p)

/-- Across a cut the first entry behind it is preceded by the last before
it. -/
theorem prev_of_cut (hF : F.WellFormed) (h : F.children p = front ++ back) :
    F.prev (.of p back.head?) = front.getLast? := by
  have hback : ∀ x ∈ back.head?, F.parent x = some p := fun x hx =>
    (hF.mem_children p x).1 (h ▸ List.mem_append_right _ (List.mem_of_head? hx))
  have hnd : (back.reverse ++ front.reverse).Nodup := by
    rw [← List.reverse_append, List.nodup_reverse, ← h]
    exact hF.nodup_children p
  rw [prev, neighbour_of hback, h, List.reverse_append, ← List.getLast?_reverse,
    nextIn_getLast? hnd, List.head?_reverse]

end Cut

/-- A child stands between its neighbours. -/
theorem exists_cut (hF : F.WellFormed) (hc : F.parent c = some p) :
    ∃ front back, F.children p = front ++ c :: back ∧
      (F.children p).erase c = front ++ back ∧
      F.prev (.entry c) = front.getLast? ∧ F.next (.entry c) = back.head? := by
  obtain ⟨front, back, -, hcut, herase⟩ := List.exists_erase_eq ((hF.mem_children p c).2 hc)
  have hcut' : F.children p = (front ++ [c]) ++ back := by simp [hcut]
  refine ⟨front, back, hcut, herase, hF.prev_of_cut hcut, ?_⟩
  rw [← hF.next_of_cut hcut', List.getLast?_append, List.getLast?_singleton]
  rfl

/-- **Sibling links come in pairs.** -/
theorem next_eq_some_iff (hF : F.WellFormed) :
    F.next (.entry a) = some b ↔ F.prev (.entry b) = some a := by
  constructor
  · intro h
    obtain ⟨p, hp, hb⟩ := Option.bind_eq_some_iff.1 h
    have hbp : F.parent b = some p := (hF.mem_children p b).1 (mem_of_follower hb).2
    rw [prev, neighbour, hbp, Option.bind_some]
    exact follower_reverse (hF.nodup_children p) hb
  · intro h
    obtain ⟨p, hp, ha⟩ := Option.bind_eq_some_iff.1 h
    have hap : F.parent a = some p := (hF.mem_reverse_children p a).1 (mem_of_follower ha).2
    rw [next, neighbour, hap, Option.bind_some]
    exact (follower_reverse_iff (hF.nodup_children p)).1 ha

end WellFormed

/-! ## The new forest -/

/-- The forest of a document node alone. -/
def new : Forest := { size := 1, children := fun _ => [], parent := fun _ => none }

theorem wellFormed_new : new.WellFormed where
  parent_lt := by simp [new]
  mem_children := by simp [new]
  nodup_children := by simp [new]
  acyclic id h := by
    obtain ⟨_, h, -⟩ := Relation.TransGen.head'_iff.1 h
    simp [new] at h

end Forest

end DocumentTree
