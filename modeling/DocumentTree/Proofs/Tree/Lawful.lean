import DocumentTree.Proofs.Tree.Check
/-!
# The laws the check stands for

The laws of an arena, said about any links at all: no bound, no note taken,
and child lists read forwards only. They are what consistency comes to
together with empty markers (`Tree.lawful_iff`), so the check passes exactly
the lawful arenas (`Tree.check_eq_ok_iff`). The walk backwards is not lost:
where sibling links come in pairs, it is the walk forwards read from its end.
-/

namespace DocumentTree

namespace Tree

variable {t : Tree} {F : Forest} {p c id : NodeId} {l : List NodeId}

/-- The laws of an arena. -/
structure Lawful (t : Tree) : Prop where
  /-- Every link of every node is inside the arena. -/
  links_mem : ∀ id l, t.links? id = some l → ∀ target ∈ l.targets, target ∈ t
  /-- No scope marker has data or attributes. -/
  markers : ∀ id n, t.get? id = some n → n.kind = .scopeMarker → n.data = "" ∧ n.attributes = []
  /-- A parentless node has no siblings. -/
  orphan : ∀ id, t.parent? id = none → t.prevSibling? id = none ∧ t.nextSibling? id = none
  /-- Sibling links come in pairs. -/
  siblings : ∀ a b, t.nextSibling? a = some b ↔ t.prevSibling? b = some a
  /-- A child list is finite, ends in the last child, holds nodes that name
  the parent, and holds each node that does exactly once. -/
  lists : ∀ p ∈ t, ∃ l, (t.forwardWalk p).Yields l ∧ l.getLast? = t.lastChild? p ∧
    (∀ c ∈ l, t.parent? c = some p) ∧ ∀ c, t.parent? c = some p → l.count c = 1
  /-- No node is its own ancestor. -/
  acyclic : ∀ id, ¬ (t.ancestorWalk id).Reaches id

/-- Links that agree keep the laws. -/
theorem Shows.lawful (h : t.Shows F) (hF : F.WellFormed) (hmarkers : t.MarkersEmpty) :
    t.Lawful where
  links_mem := (h.consistent hF).links_mem
  markers := hmarkers
  orphan := (h.consistent hF).orphan
  siblings a b := by
    have hnext : t.nextSibling? a = F.next (.entry a) := congrFun h.next_eq (.entry a)
    have hprev : t.prevSibling? b = F.prev (.entry b) := congrFun h.prev_eq (.entry b)
    rw [hnext, hprev]
    exact hF.next_eq_some_iff
  lists p _ := by
    refine ⟨F.children p, h.forward hF p, (h.lastChild?_eq p).symm, fun c hc => ?_, fun c hc => ?_⟩
    · rw [h.parent_eq]
      exact (hF.mem_children p c).1 hc
    · rw [h.parent_eq] at hc
      exact List.count_eq_one_of_mem (hF.nodup_children p) ((hF.mem_children p c).2 hc)
  acyclic := (h.consistent hF).acyclic

namespace Lawful

/-- What the laws say of the list of one node. -/
theorem mem_iff_parent? (h : t.Lawful) (hp : p ∈ t) (hf : (t.forwardWalk p).Yields l) :
    c ∈ l ↔ t.parent? c = some p := by
  obtain ⟨l', hf', -, hparent, hcount⟩ := h.lists p hp
  obtain rfl := hf.unique hf'
  refine ⟨hparent c, fun hc => List.count_pos_iff.1 ?_⟩
  rw [hcount c hc]
  exact Nat.one_pos

/-- **Pairs of sibling links make the walk backwards**: what precedes a
child is what the child follows, and that is in the same list. -/
theorem prevSibling?_eq (h : t.Lawful) (hp : p ∈ t) (hf : (t.forwardWalk p).Yields l)
    (hid : id ∈ l) : t.prevSibling? id = follower id l.reverse := by
  ext a
  rw [← h.siblings a id]
  constructor
  · intro hnext
    have hidp : t.parent? id = some p := (h.mem_iff_parent? hp hf).1 hid
    cases ha : t.parent? a with
    | none => simp [(h.orphan a ha).2] at hnext
    | some q =>
      -- `a` is in the list of its own parent, and there it is followed by `id`
      have hq : q ∈ t := parent_mem h.links_mem ha
      obtain ⟨l', hf', -⟩ := h.lists q hq
      have hal : a ∈ l' := (h.mem_iff_parent? hq hf').2 ha
      have hfollow : follower a l' = some id := (hf'.next_eq hal).symm.trans hnext
      have hidq := (h.mem_iff_parent? hq hf').1 (mem_of_follower hfollow).2
      obtain rfl : p = q := Option.some.inj (hidp.symm.trans hidq)
      obtain rfl := hf.unique hf'
      exact follower_reverse hf.nodup hfollow
  · intro hfollow
    rw [follower_reverse_iff hf.nodup] at hfollow
    rw [← hfollow]
    exact hf.next_eq (mem_of_follower hfollow).1

theorem backward (h : t.Lawful) (hp : p ∈ t) (hf : (t.forwardWalk p).Yields l)
    (hlast : l.getLast? = t.lastChild? p) : (t.backwardWalk p).Yields l.reverse := by
  rw [backwardWalk, ← hlast, ← List.head?_reverse]
  exact Walk.yields_of_follower (List.nodup_reverse.2 hf.nodup)
    fun id hid => h.prevSibling?_eq hp hf (List.mem_reverse.1 hid)

/-- **The laws make the links agree.** -/
theorem consistent (h : t.Lawful) : t.Consistent where
  links_mem := h.links_mem
  lists_agree p := by
    by_cases hp : p ∈ t
    · obtain ⟨l, hf, hlast, -⟩ := h.lists p hp
      exact ⟨l, hf, h.backward hp hf hlast⟩
    · exact ⟨[], yields_nil_of_not_mem hp⟩
  listed_iff p c := by
    constructor
    · intro hr
      have hp := mem_of_reaches_forwardWalk hr
      obtain ⟨l, hf, -⟩ := h.lists p hp
      exact (h.mem_iff_parent? hp hf).1 (hf.reaches_iff.1 hr)
    · intro hc
      have hp := parent_mem h.links_mem hc
      obtain ⟨l, hf, -⟩ := h.lists p hp
      exact hf.reaches_iff.2 ((h.mem_iff_parent? hp hf).2 hc)
  orphan := h.orphan
  acyclic := h.acyclic

end Lawful

theorem lawful_iff : t.Lawful ↔ t.Consistent ∧ t.MarkersEmpty := by
  refine ⟨fun h => ⟨h.consistent, h.markers⟩, fun ⟨h, hmarkers⟩ => ?_⟩
  obtain ⟨F, hF, hshows⟩ := h.exists_shows
  exact hshows.lawful hF hmarkers

/-- **The check passes exactly the lawful arenas**, whatever their links:
dangling, looping, crossed or shared. -/
theorem check_eq_ok_iff : t.check = .ok () ↔ t.Lawful := by
  rw [check_eq_ok_iff_consistent, lawful_iff]

end Tree

end DocumentTree
