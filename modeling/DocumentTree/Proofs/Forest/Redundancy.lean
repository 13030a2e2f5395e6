import DocumentTree.Proofs.Forest.Basic
/-!
# Links that the other nodes hold

The five links of a node say nothing that the links of the other nodes do
not say already: its first child names it and has nothing before it, its
next sibling has it before, and its parent has it as the first child or as
the sibling after some other child. So two well-formed forests that agree on
the links of all nodes but one agree on those too
(`Forest.AgreeBeside.links_eq`). It takes that no link leads back to its own
node.
-/

namespace DocumentTree

/-- The node whose link leads from a place to the next one. -/
def Place.node : Place → NodeId
  | .edge p => p
  | .entry id => id

namespace Forest

variable {F G : Forest} {p c id : NodeId}

namespace WellFormed

/-- A first child is a child that nothing precedes. -/
theorem next_edge_eq_some_iff (hF : F.WellFormed) :
    F.next (.edge p) = some c ↔ F.parent c = some p ∧ F.prev (.entry c) = none := by
  constructor
  · intro h
    have hhead : (F.children p).head? = some c := h
    have hprev := hF.prev_of_cut (List.nil_append (F.children p)).symm
    rw [hhead] at hprev
    exact ⟨(hF.mem_children p c).1 (List.mem_of_head? hhead), hprev⟩
  · rintro ⟨hp, hprev⟩
    obtain ⟨front, back, hcut, -, hfront, -⟩ := hF.exists_cut hp
    rw [hprev, eq_comm, List.getLast?_eq_none_iff] at hfront
    have hhead : (F.children p).head? = some c := by simp [hcut, hfront]
    exact hhead

/-- A child is the first one or has a sibling before it, which is a child
too. -/
theorem parent_eq_some_iff (hF : F.WellFormed) :
    F.parent c = some p ↔
      F.next (.edge p) = some c ∨ ∃ a, F.next (.entry a) = some c ∧ F.parent a = some p := by
  constructor
  · intro hp
    obtain ⟨front, back, hcut, -, hprev, -⟩ := hF.exists_cut hp
    cases hlast : front.getLast? with
    | none => exact .inl (hF.next_edge_eq_some_iff.2 ⟨hp, hprev.trans hlast⟩)
    | some a =>
      have ha : a ∈ F.children p := hcut ▸ List.mem_append_left _ (List.mem_of_getLast? hlast)
      exact .inr ⟨a, hF.next_eq_some_iff.2 (hprev.trans hlast), (hF.mem_children p a).1 ha⟩
  · rintro (h | ⟨a, h, hp⟩)
    · exact (hF.next_edge_eq_some_iff.1 h).1
    · rw [next, neighbour, hp, Option.bind_some] at h
      exact (hF.mem_children p c).1 (mem_of_follower h).2

/-- **No link leads back to the node it is at.** -/
theorem next_ne_node (hF : F.WellFormed) (place : Place) : F.next place ≠ some place.node := by
  intro h
  cases place with
  | edge p => exact hF.acyclic p (.single (hF.next_edge_eq_some_iff.1 h).1)
  | entry a =>
    obtain ⟨p, hp⟩ := exists_parent_of_neighbour hF.mem_children h
    obtain ⟨front, back, hcut, -, -, hnext⟩ := hF.exists_cut hp
    -- `a` would stand behind itself in the list
    have hback : a ∈ back := List.mem_of_head? (hnext.symm.trans h)
    have hnd := hF.nodup_children p
    rw [hcut, List.nodup_append, List.nodup_cons] at hnd
    exact hnd.2.1.1 hback

end WellFormed

/-! ## Agreement beside a node -/

/-- The forest read from right to left. -/
def reverse (F : Forest) : Forest := { F with children := fun p => (F.children p).reverse }

theorem WellFormed.reverse (hF : F.WellFormed) : F.reverse.WellFormed where
  parent_lt := hF.parent_lt
  mem_children := hF.mem_reverse_children
  nodup_children p := List.nodup_reverse.2 (hF.nodup_children p)
  acyclic := hF.acyclic

@[simp] theorem prev_reverse : F.reverse.prev = F.next := by
  funext place
  simp [prev, next, reverse]

/-- Two forests have the same parents and neighbours but perhaps those that
the links of one node lead to. -/
structure AgreeBeside (F G : Forest) (id : NodeId) : Prop where
  parent_eq : ∀ x ≠ id, F.parent x = G.parent x
  next_eq : ∀ place : Place, place.node ≠ id → F.next place = G.next place
  prev_eq : ∀ place : Place, place.node ≠ id → F.prev place = G.prev place

namespace AgreeBeside

theorem reverse (h : F.AgreeBeside G id) : F.reverse.AgreeBeside G.reverse id where
  parent_eq := h.parent_eq
  next_eq := h.prev_eq
  prev_eq := by simpa using h.next_eq

/-- The parent of a node is found without it: it has the node as its first
child, or a child whose next sibling the node is. -/
theorem parent_eq_self (h : F.AgreeBeside G id) (hF : F.WellFormed) (hG : G.WellFormed) :
    F.parent id = G.parent id := by
  refine Option.ext fun p => ?_
  rw [hF.parent_eq_some_iff, hG.parent_eq_some_iff]
  refine or_congr ?_ (exists_congr fun a => ?_)
  · -- where the link would start at `id` itself, neither forest has it
    rcases eq_or_ne p id with rfl | hp
    · exact iff_of_false (hF.next_ne_node (.edge p)) (hG.next_ne_node (.edge p))
    · rw [h.next_eq (.edge p) hp]
  · rcases eq_or_ne a id with rfl | ha
    · exact iff_of_false (fun hn => hF.next_ne_node (.entry a) hn.1)
        fun hn => hG.next_ne_node (.entry a) hn.1
    · rw [h.next_eq (.entry a) ha, h.parent_eq a ha]

/-- What follows the node is settled by the others too: that has a link
back. -/
theorem next_eq_self (h : F.AgreeBeside G id) (hF : F.WellFormed) (hG : G.WellFormed)
    {place : Place} (hplace : place.node = id) : F.next place = G.next place := by
  subst hplace
  refine Option.ext fun c => ?_
  rcases eq_or_ne c place.node with rfl | hc
  · exact iff_of_false (hF.next_ne_node place) (hG.next_ne_node place)
  · cases place with
    | edge p =>
      rw [hF.next_edge_eq_some_iff, hG.next_edge_eq_some_iff, h.parent_eq c hc,
        h.prev_eq (.entry c) hc]
    | entry a => rw [hF.next_eq_some_iff, hG.next_eq_some_iff, h.prev_eq (.entry c) hc]

/-- **The links of one node are held by those of the others.** Forests that
agree beside a node agree. -/
theorem links_eq (h : F.AgreeBeside G id) (hF : F.WellFormed) (hG : G.WellFormed) :
    F.parent = G.parent ∧ F.next = G.next ∧ F.prev = G.prev := by
  refine ⟨funext fun x => ?_, funext fun place => ?_, funext fun place => ?_⟩
  · rcases eq_or_ne x id with rfl | hx
    · exact h.parent_eq_self hF hG
    · exact h.parent_eq x hx
  · by_cases hplace : place.node = id
    · exact h.next_eq_self hF hG hplace
    · exact h.next_eq place hplace
  · by_cases hplace : place.node = id
    · exact h.reverse.next_eq_self hF.reverse hG.reverse hplace
    · exact h.prev_eq place hplace

end AgreeBeside

end Forest

end DocumentTree
