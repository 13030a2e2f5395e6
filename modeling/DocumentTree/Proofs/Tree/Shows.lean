import DocumentTree.Proofs.Forest.Basic
import DocumentTree.Proofs.Tree.ChildCursor
import DocumentTree.Proofs.Walk
import DocumentTree.Tree.Consistent
/-!
# The forest an arena shows

Where the links of an arena agree they are those of an ordered forest, and
of one only: the forest that the traversals read (`Tree.forest`). An arena
shows a forest when each of its links is what the forest asks for at that
place (`Tree.Shows`), and that it shows a well-formed forest is all there is
to consistency (`Tree.consistent_iff`). Facts about edits are proved of what
is shown, where a child list is a list.
-/

namespace DocumentTree

namespace Tree

variable {t t' : Tree} {F : Forest} {p id : NodeId} {l : List NodeId}

/-- What follows a place, as the links have it. -/
def next? (t : Tree) : Place → Option NodeId
  | .edge p => t.firstChild? p
  | .entry id => t.nextSibling? id

/-- What precedes a place, as the links have it. -/
def prev? (t : Tree) : Place → Option NodeId
  | .edge p => t.lastChild? p
  | .entry id => t.prevSibling? id

/-- Every link of the arena is what the forest asks for. -/
structure Shows (t : Tree) (F : Forest) : Prop where
  size_eq : t.size = F.size
  parent_eq : t.parent? = F.parent
  next_eq : t.next? = F.next
  prev_eq : t.prev? = F.prev

/-- The forest that the traversals of an arena read. -/
def forest (t : Tree) : Forest where
  size := t.size
  children := t.children
  parent := t.parent?

theorem mem_iff_lt : id ∈ t ↔ id.index < t.size := Iff.rfl

/-- Nothing is stored outside the arena, so no link starts there. -/
theorem get?_eq_none_of_not_mem (h : id ∉ t) : t.get? id = none := by
  rw [← Option.not_isSome_iff_eq_none, Option.isSome_iff_exists, ← mem_iff_get?]
  exact h

theorem links?_eq_none_of_not_mem (h : id ∉ t) : t.links? id = none := by
  rw [links?, get?_eq_none_of_not_mem h, Option.map_none]

theorem exists_links?_of_mem (h : id ∈ t) : ∃ l, t.links? id = some l := by
  obtain ⟨n, hn⟩ := mem_iff_get?.1 h
  exact ⟨n.links, by simp [links?, hn]⟩

/-- The ids of an arena, as a finite set. -/
def ids (t : Tree) : Finset NodeId := (Finset.range t.size).image NodeId.mk

@[simp] theorem mem_ids : id ∈ t.ids ↔ id ∈ t := by
  obtain ⟨i⟩ := id
  simp [ids, mem_iff_lt]

@[simp] theorem card_ids : t.ids.card = t.size := by
  rw [ids, Finset.card_image_of_injective _ fun i j h => congrArg NodeId.index h,
    Finset.card_range]

/-- What stays inside the arena and repeats nothing is no longer than it. -/
theorem length_le_of_yields {w : Walk} (h : w.Yields l) (hmem : ∀ x ∈ l, x ∈ t) :
    l.length ≤ t.size := by
  rw [← card_ids]
  exact h.length_le_card fun x hx => mem_ids.2 (hmem x hx)

/-! ## Links of one slot -/

section Slot

variable {links links' : Links}

theorem parent?_of_links? (h : t.links? id = some links) : t.parent? id = links.parent := by
  simp [parent?, h]

theorem firstChild?_of_links? (h : t.links? id = some links) : t.firstChild? id = links.firstChild := by
  simp [firstChild?, h]

theorem lastChild?_of_links? (h : t.links? id = some links) : t.lastChild? id = links.lastChild := by
  simp [lastChild?, h]

theorem prevSibling?_of_links? (h : t.links? id = some links) :
    t.prevSibling? id = links.prevSibling := by
  simp [prevSibling?, h]

theorem nextSibling?_of_links? (h : t.links? id = some links) :
    t.nextSibling? id = links.nextSibling := by
  simp [nextSibling?, h]

theorem mem_targets_iff {target : NodeId} :
    target ∈ links.targets ↔
      links.parent = some target ∨ links.firstChild = some target ∨
        links.lastChild = some target ∨ links.prevSibling = some target ∨
          links.nextSibling = some target := by
  simp [Links.targets, eq_comm]

/-- Where no link leads out of the arena no parent is outside. -/
theorem parent_mem (hmem : ∀ id l, t.links? id = some l → ∀ target ∈ l.targets, target ∈ t)
    (hp : t.parent? id = some p) : p ∈ t := by
  obtain ⟨l, hl, hlp⟩ := Option.bind_eq_some_iff.1 hp
  exact hmem id l hl p (mem_targets_iff.2 (.inl hlp))

/-- The links of a node are the five that are read of it. -/
theorem links_eq_of_reads (hl : t.links? id = some links) (hl' : t'.links? id = some links')
    (hparent : t.parent? = t'.parent?) (hnext : t.next? = t'.next?) (hprev : t.prev? = t'.prev?) :
    links = links' := by
  have hfirst : t.firstChild? id = t'.firstChild? id := congrFun hnext (.edge id)
  have hlast : t.lastChild? id = t'.lastChild? id := congrFun hprev (.edge id)
  have hbefore : t.prevSibling? id = t'.prevSibling? id := congrFun hprev (.entry id)
  have hafter : t.nextSibling? id = t'.nextSibling? id := congrFun hnext (.entry id)
  have hup : t.parent? id = t'.parent? id := congrFun hparent id
  rw [firstChild?_of_links? hl, firstChild?_of_links? hl'] at hfirst
  rw [lastChild?_of_links? hl, lastChild?_of_links? hl'] at hlast
  rw [prevSibling?_of_links? hl, prevSibling?_of_links? hl'] at hbefore
  rw [nextSibling?_of_links? hl, nextSibling?_of_links? hl'] at hafter
  rw [parent?_of_links? hl, parent?_of_links? hl'] at hup
  cases links
  cases links'
  simp_all

end Slot

/-! ## Reading what is shown -/

/-- A child list is linked up, one child with the next. -/
theorem Shows.chained (h : t.Shows F) (hF : F.WellFormed) (p : NodeId) :
    t.Chained (F.children p) where
  nodup := hF.nodup_children p
  next_eq id hid := by
    have hnext : t.nextSibling? id = F.next (.entry id) := congrFun h.next_eq (.entry id)
    rw [hnext, Forest.next, Forest.neighbour, (hF.mem_children p id).1 hid, Option.bind_some]
  prev_eq id hid := by
    have hprev : t.prevSibling? id = F.prev (.entry id) := congrFun h.prev_eq (.entry id)
    rw [hprev, Forest.prev, Forest.neighbour, (hF.mem_children p id).1 hid, Option.bind_some]

theorem Shows.firstChild?_eq (h : t.Shows F) (p : NodeId) :
    t.firstChild? p = (F.children p).head? :=
  congrFun h.next_eq (.edge p)

theorem Shows.lastChild?_eq (h : t.Shows F) (p : NodeId) :
    t.lastChild? p = (F.children p).getLast? := by
  rw [← List.head?_reverse]
  exact congrFun h.prev_eq (.edge p)

theorem Shows.forward (h : t.Shows F) (hF : F.WellFormed) (p : NodeId) :
    (t.forwardWalk p).Yields (F.children p) := by
  rw [forwardWalk, h.firstChild?_eq p]
  exact Walk.yields_of_follower (hF.nodup_children p) (h.chained hF p).next_eq

theorem Shows.backward (h : t.Shows F) (hF : F.WellFormed) (p : NodeId) :
    (t.backwardWalk p).Yields (F.children p).reverse := by
  rw [backwardWalk, h.lastChild?_eq p, ← List.head?_reverse]
  exact Walk.yields_of_follower (List.nodup_reverse.2 (hF.nodup_children p))
    fun id hid => (h.chained hF p).prev_eq id (List.mem_reverse.1 hid)

/-- The way up from a node reaches what the node is below. -/
theorem Shows.reaches_ancestorWalk_iff (h : t.Shows F) {a : NodeId} :
    (t.ancestorWalk id).Reaches a ↔ F.Below id a := by
  rw [ancestorWalk, h.parent_eq]
  exact Walk.reaches_iff_transGen

theorem Shows.mem_iff (h : t.Shows F) : id ∈ t ↔ id.index < F.size := by
  rw [mem_iff_lt, h.size_eq]

theorem Shows.mem_of_mem_children (h : t.Shows F) (hF : F.WellFormed) {c : NodeId}
    (hc : c ∈ F.children p) : c ∈ t :=
  h.mem_iff.2 (hF.parent_lt c p ((hF.mem_children p c).1 hc)).1

/-- A child list is no longer than what a traversal reads. -/
theorem Shows.length_children_le (h : t.Shows F) (hF : F.WellFormed) (p : NodeId) :
    (F.children p).length ≤ t.walkBound := by
  have hlen := length_le_of_yields (h.forward hF p) fun c hc => h.mem_of_mem_children hF hc
  exact hlen.trans (Nat.le_succ _)

theorem Shows.childCursor_eq (h : t.Shows F) (p : NodeId) :
    t.childCursor p = .spanning (F.children p) := by
  rw [childCursor, h.firstChild?_eq, h.lastChild?_eq, ChildCursor.spanning]

/-- **The children are read as they are.** -/
theorem Shows.children_eq (h : t.Shows F) (hF : F.WellFormed) (p : NodeId) :
    t.children p = F.children p := by
  rw [children, h.childCursor_eq]
  exact ChildCursor.take_front_spanning (h.chained hF p).whole (h.length_children_le hF p)

/-- Backwards the children are read in reverse. -/
theorem Shows.childrenRev_eq (h : t.Shows F) (hF : F.WellFormed) (p : NodeId) :
    t.childrenRev p = (F.children p).reverse := by
  rw [childrenRev, h.childCursor_eq]
  exact ChildCursor.take_back_spanning (h.chained hF p).whole (h.length_children_le hF p)

/-- An arena shows one forest, the one its traversals read. -/
theorem Shows.forest_eq (h : t.Shows F) (hF : F.WellFormed) : t.forest = F := by
  ext1
  · exact h.size_eq
  · exact funext (h.children_eq hF)
  · exact h.parent_eq

/-- A forest is shown by one set of links. -/
theorem Shows.links?_eq (h : t.Shows F) (h' : t'.Shows F) : t'.links? = t.links? := by
  funext id
  by_cases hid : id ∈ t
  · have hid' : id ∈ t' := h'.mem_iff.2 (h.mem_iff.1 hid)
    obtain ⟨links, hl⟩ := exists_links?_of_mem hid
    obtain ⟨links', hl'⟩ := exists_links?_of_mem hid'
    have hread := links_eq_of_reads hl' hl (h'.parent_eq.trans h.parent_eq.symm)
      (h'.next_eq.trans h.next_eq.symm) (h'.prev_eq.trans h.prev_eq.symm)
    rw [hl, hl', hread]
  · have hid' : id ∉ t' := mt (fun hmem => h.mem_iff.2 (h'.mem_iff.1 hmem)) hid
    rw [links?_eq_none_of_not_mem hid, links?_eq_none_of_not_mem hid']

/-! ## Consistency -/

theorem Shows.consistent (h : t.Shows F) (hF : F.WellFormed) : t.Consistent where
  links_mem id l hl target htarget := by
    rw [h.mem_iff]
    rcases mem_targets_iff.1 htarget with hp | hn | hp | hp | hn
    · exact (hF.parent_lt id target (by rw [← h.parent_eq, parent?_of_links? hl, hp])).2
    · have hnext : F.next (.edge id) = some target := by
        rw [← h.next_eq, next?, firstChild?_of_links? hl, hn]
      exact hF.lt_of_next hnext
    · have hprev : F.prev (.edge id) = some target := by
        rw [← h.prev_eq, prev?, lastChild?_of_links? hl, hp]
      exact hF.lt_of_prev hprev
    · have hprev : F.prev (.entry id) = some target := by
        rw [← h.prev_eq, prev?, prevSibling?_of_links? hl, hp]
      exact hF.lt_of_prev hprev
    · have hnext : F.next (.entry id) = some target := by
        rw [← h.next_eq, next?, nextSibling?_of_links? hl, hn]
      exact hF.lt_of_next hnext
  lists_agree p := ⟨F.children p, h.forward hF p, h.backward hF p⟩
  listed_iff p c := by
    rw [(h.forward hF p).reaches_iff, hF.mem_children, h.parent_eq]
  orphan id hid := by
    rw [h.parent_eq] at hid
    exact ⟨(congrFun h.prev_eq (.entry id)).trans (Forest.neighbour_entry_of_orphan hid),
      (congrFun h.next_eq (.entry id)).trans (Forest.neighbour_entry_of_orphan hid)⟩
  acyclic id := by
    rw [h.reaches_ancestorWalk_iff]
    exact hF.acyclic id

/-- The links of a consistent arena are those of a well-formed forest. -/
theorem Consistent.exists_shows (h : t.Consistent) : ∃ F : Forest, F.WellFormed ∧ t.Shows F := by
  choose lists hforward hbackward using h.lists_agree
  have hmem : ∀ p c, c ∈ lists p ↔ t.parent? c = some p := fun p c =>
    (hforward p).reaches_iff.symm.trans (h.listed_iff p c)
  refine ⟨⟨t.size, lists, t.parent?⟩, ⟨fun c p hp => ?_, hmem, fun p => (hforward p).nodup,
    fun id hid => h.acyclic id (Walk.reaches_iff_transGen.2 hid)⟩, rfl, rfl, ?_, ?_⟩
  · exact ⟨mem_of_parent? hp, parent_mem h.links_mem hp⟩
  · funext place
    cases place with
    | edge p => exact (hforward p).start_eq
    | entry id =>
      cases hp : t.parent? id with
      | none => exact (h.orphan id hp).2.trans (Forest.neighbour_entry_of_orphan hp).symm
      | some p =>
        simp only [next?, Forest.next, Forest.neighbour, hp, Option.bind_some]
        exact (hforward p).next_eq ((hmem p id).2 hp)
  · funext place
    cases place with
    | edge p => exact (hbackward p).start_eq
    | entry id =>
      cases hp : t.parent? id with
      | none => exact (h.orphan id hp).1.trans (Forest.neighbour_entry_of_orphan hp).symm
      | some p =>
        simp only [prev?, Forest.prev, Forest.neighbour, hp, Option.bind_some]
        exact (hbackward p).next_eq (List.mem_reverse.2 ((hmem p id).2 hp))

/-- **An arena is consistent when the forest its traversals read is well
formed and is the one its links show.** -/
theorem consistent_iff : t.Consistent ↔ t.forest.WellFormed ∧ t.Shows t.forest := by
  constructor
  · intro h
    obtain ⟨F, hF, hshows⟩ := h.exists_shows
    rw [hshows.forest_eq hF]
    exact ⟨hF, hshows⟩
  · rintro ⟨hF, hshows⟩
    exact hshows.consistent hF

end Tree

end DocumentTree
